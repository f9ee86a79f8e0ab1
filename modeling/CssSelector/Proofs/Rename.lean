import CssSelector.Proofs.Warnings

set_option autoImplicit false

namespace CssSelector

open Text

/-! Trees with mapped names. The text of an argument stays, also where its name is not known. -/

section
variable (φ : String → String)

mutual

def Selector.mapNames : Selector → Selector
  | ⟨rs⟩ => ⟨mapNamesOfRules rs⟩

def mapNamesOfRules : List Rule → List Rule
  | [] => []
  | r :: rs => r.mapNames :: mapNamesOfRules rs

def Rule.mapNames : Rule → Rule
  | ⟨is⟩ => ⟨mapNamesOfItems is⟩

def mapNamesOfItems : List Item → List Item
  | [] => []
  | i :: is => i.mapNames :: mapNamesOfItems is

def Item.mapNames : Item → Item
  | .pseudo category name none => .pseudo category (φ name) none
  | .pseudo category name (some a) => .pseudo category (φ name) (some a.mapNames)
  | i => i

def Argument.mapNames : Argument → Argument
  | .selector s => .selector s.mapNames
  | .formulaOfSelector f (some s) => .formulaOfSelector f (some s.mapNames)
  | a => a

end

theorem mapNamesOfItems_append (is js : List Item) :
    mapNamesOfItems φ (is ++ js) = mapNamesOfItems φ is ++ mapNamesOfItems φ js := by
  induction is with
  | nil => rfl
  | cons i is ih => simp [mapNamesOfItems, ih]

theorem mapNamesOfItems_eq_nil {is : List Item} : mapNamesOfItems φ is = [] ↔ is = [] := by
  cases is <;> simp [mapNamesOfItems]

theorem Item.mapNames_pseudo (category : Category) (name : String) (a : Option Argument) :
    (Item.pseudo category name a).mapNames φ =
      .pseudo category (φ name) (a.map (Argument.mapNames φ)) := by
  cases a <;> rfl

theorem Item.start?_mapNames (i : Item) : (i.mapNames φ).start? = i.start? := by
  cases i with
  | pseudo _ _ a => cases a <;> rfl
  | _ => rfl

theorem ItemStart.mayFollow_mapNames (k : ItemStart) (previous : Option Item) :
    k.mayFollow (previous.map (Item.mapNames φ)) = k.mayFollow previous := by
  rcases previous with _ | i
  · rfl
  · cases i with
    | pseudo category _ a => cases category <;> cases a <;> cases k <;> rfl
    | _ => rfl

end

mutual

theorem Selector.mapNames_id (s : Selector) : s.mapNames id = s := by
  obtain ⟨rs⟩ := s
  exact congrArg Selector.mk (mapNamesOfRules_id rs)

theorem mapNamesOfRules_id : ∀ rs : List Rule, mapNamesOfRules id rs = rs
  | [] => rfl
  | r :: rs => congrArg₂ List.cons (Rule.mapNames_id r) (mapNamesOfRules_id rs)

theorem Rule.mapNames_id (r : Rule) : r.mapNames id = r := by
  obtain ⟨is⟩ := r
  exact congrArg Rule.mk (mapNamesOfItems_id is)

theorem mapNamesOfItems_id : ∀ is : List Item, mapNamesOfItems id is = is
  | [] => rfl
  | i :: is => congrArg₂ List.cons (Item.mapNames_id i) (mapNamesOfItems_id is)

theorem Item.mapNames_id : ∀ i : Item, i.mapNames id = i
  | .pseudo category name (some a) =>
    congrArg (Item.pseudo category name ∘ some) (Argument.mapNames_id a)
  | .pseudo _ _ none => rfl
  | .tagName _ => rfl
  | .universal => rfl
  | .className _ => rfl
  | .idName _ => rfl
  | .attribute _ => rfl
  | .combinator _ => rfl

theorem Argument.mapNames_id : ∀ a : Argument, a.mapNames id = a
  | .selector s => congrArg Argument.selector (Selector.mapNames_id s)
  | .formulaOfSelector f (some s) =>
    congrArg (Argument.formulaOfSelector f ∘ some) (Selector.mapNames_id s)
  | .formulaOfSelector _ none => rfl
  | .string _ => rfl
  | .number _ => rfl
  | .identifier _ => rfl
  | .formula _ => rfl

end

/-! Mentions. -/

def Feature.name? : Feature → Option String
  | .pseudo _ name => some name
  | _ => none

def Feature.mapName (φ : String → String) : Feature → Feature
  | .pseudo category name => .pseudo category (φ name)
  | f => f

def Mention.mapName (φ : String → String) (m : Mention) : Mention :=
  { m with feature := m.feature.mapName φ }

/-- The names of pseudo-classes and pseudo-elements, in the order of the text. -/
def Selector.names (s : Selector) : List String := s.features.filterMap Feature.name?

/-- No letters are lost but for their case. -/
def Folds (φ : String → String) : Prop := ∀ s t, φ s = φ t → fold s = fold t

theorem folds_id : Folds id := fun _ _ h => congrArg fold h

theorem folds_fold : Folds fold := fun _ _ h => h

@[simp] theorem Feature.mapName_id (f : Feature) : f.mapName id = f := by cases f <;> rfl

@[simp] theorem Mention.mapName_id : Mention.mapName id = id := by
  funext m
  rw [mapName, Feature.mapName_id]
  rfl

section
variable {d : Dialect} {φ : String → String}

theorem Folds.signature?_eq (hφ : Folds φ) (category : Category) {s t : String} (h : φ s = φ t) :
    d.signature? category s = d.signature? category t := by
  rw [Dialect.signature?, Dialect.signature?, hφ s t h]

theorem Folds.ne_empty (hφ : Folds φ) {s t : String} (h : φ s = φ t) (ht : t ≠ "") : s ≠ "" := by
  rintro rfl
  have hlist := congrArg String.toList (hφ _ _ h)
  simp only [fold, String.toList_ofList] at hlist
  exact ht (String.toList_inj.1 (List.map_eq_nil_iff.1 hlist.symm))

theorem Folds.recognises_eq (hφ : Folds φ) {f g : Feature} (h : f.mapName φ = g.mapName φ) :
    d.recognises f = d.recognises g ∧ d.policyOn f = d.policyOn g := by
  cases f with
  | pseudo category name =>
    cases g with
    | pseudo category' name' =>
      obtain ⟨rfl, hname⟩ := Feature.pseudo.inj h
      refine ⟨congrArg Option.isSome (hφ.signature?_eq category hname), ?_⟩
      cases category <;> rfl
    | _ => simp [Feature.mapName] at h
  | operator | modifier | combinator =>
    cases g with
    | pseudo => simp [Feature.mapName] at h
    | operator | modifier | combinator => cases h <;> exact ⟨rfl, rfl⟩

theorem Folds.admits_eq (hφ : Folds φ) {f g : Feature} (h : f.mapName φ = g.mapName φ) :
    d.admits f = d.admits g ∧ d.flags f = d.flags g := by
  obtain ⟨hr, hp⟩ := hφ.recognises_eq (d := d) h
  rw [Dialect.admits, Dialect.admits, Dialect.flags, Dialect.flags, hr, hp]
  exact ⟨rfl, rfl⟩

theorem Dialect.Passes.rename (hφ : Folds φ) {ms ns : List Mention} {ws : List Warning}
    (h : d.Passes ms ws) (hn : ns.map (Mention.mapName φ) = ms.map (Mention.mapName φ)) :
    d.Passes ns (d.warnings ns) := by
  refine ⟨fun n hmem => ?_, rfl⟩
  obtain ⟨m, hm, hmn⟩ := List.mem_map.1 (hn ▸ List.mem_map_of_mem hmem)
  rw [(hφ.admits_eq (congrArg Mention.feature hmn.symm)).1]
  exact h.1 m hm

end
end CssSelector
