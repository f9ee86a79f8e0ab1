/-!
Maps from names to values. The entries are held in strictly increasing order of name, which is the
order of the UTF-8 bytes, so two maps with the same look-ups are equal.
-/

set_option autoImplicit false

namespace CssSelector

structure NameMap (α : Type) where
  entries : List (String × α)
  sorted : entries.Pairwise (fun x y => x.1 < y.1)

namespace NameMap
variable {α β : Type}

def empty : NameMap α := ⟨[], .nil⟩

def find? (m : NameMap α) (name : String) : Option α := m.entries.lookup name

def contains (m : NameMap α) (name : String) : Bool := (m.find? name).isSome

def keys (m : NameMap α) : List String := m.entries.map (·.1)

/-- Puts an entry in its place in sorted entries, over one of the same name. -/
def place (name : String) (value : α) : List (String × α) → List (String × α)
  | [] => [(name, value)]
  | e :: es =>
    if name < e.1 then (name, value) :: e :: es
    else if name = e.1 then (name, value) :: es
    else e :: place name value es

theorem mem_place {name : String} {value : α} {x : String × α} {es : List (String × α)}
    (h : x ∈ place name value es) : x = (name, value) ∨ x ∈ es := by
  induction es with
  | nil => simpa [place] using h
  | cons e es ih => grind [place]

theorem place_sorted {name : String} {value : α} {es : List (String × α)}
    (h : es.Pairwise (fun x y => x.1 < y.1)) :
    (place name value es).Pairwise (fun x y => x.1 < y.1) := by
  induction es with
  | nil => simp [place]
  | cons e es ih =>
    obtain ⟨he, hes⟩ := List.pairwise_cons.1 h
    unfold place
    split
    case isTrue lt =>
      refine h.cons fun x hx => ?_
      rcases List.mem_cons.1 hx with rfl | hx
      · exact lt
      · exact String.lt_trans lt (he x hx)
    split
    case isFalse.isTrue eq => exact hes.cons fun x hx => eq ▸ he x hx
    case isFalse.isFalse nlt ne =>
      refine (ih hes).cons fun x hx => ?_
      rcases mem_place hx with rfl | hx
      · exact String.not_le.1 fun le => ne (String.le_antisymm le (String.not_lt.1 nlt)) 
      · exact he x hx

def insert (m : NameMap α) (name : String) (value : α) : NameMap α :=
  ⟨place name value m.entries, place_sorted m.sorted⟩

def map (f : α → β) (m : NameMap α) : NameMap β :=
  ⟨m.entries.map fun e => (e.1, f e.2), by simpa [List.pairwise_map] using m.sorted⟩

end NameMap
end CssSelector
