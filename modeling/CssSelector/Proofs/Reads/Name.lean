import CssSelector.Proofs.Rename
import CssSelector.Proofs.Role

set_option autoImplicit false

namespace CssSelector

def Mention.name? (m : Mention) : Option (String × Nat) := m.feature.name?.map (·, m.position)

namespace Zone

def names (as : List (Token × Role)) : List (String × Nat) :=
  as.filterMap fun (t, ρ) => if ρ = .name then some (t.text, t.position) else none

variable {as bs : List (Token × Role)}

@[simp] theorem names_append : names (as ++ bs) = names as ++ names bs := List.filterMap_append

theorem names_eq_nil (h : ∀ a ∈ as, a.2 ≠ .name) : names as = [] :=
  List.filterMap_eq_nil_iff.2 fun a ha => if_neg (h a ha)

theorem names_cons_of_ne {t : Token} {ρ : Role} (h : ρ ≠ .name) :
    names ((t, ρ) :: as) = names as := List.filterMap_cons_none (if_neg h)

end Zone

namespace Parse
variable {c : Context} {xs : List Token} {ms : List Mention}

theorem ReadsAttribute.names {a : Attribute} (h : ReadsAttribute xs a ms) :
    ms.filterMap Mention.name? = [] := by
  cases h with
  | presence => rfl
  | comparison _ _ _ _ _ _ _ _ _ hm _ => cases hm <;> rfl

theorem Reads.names {p : Phrase} (h : Reads c xs p ms) {z : Zone} (hz : p.Starts z) :
    ms.filterMap Mention.name? = Zone.names (z.roles c.dialect xs) := by
  have hspaces {z : Zone} {s : List Token} (hz : z.Open) (hs : Spaces s) :
      Zone.names (z.roles c.dialect s) = [] :=
    Zone.names_eq_nil fun a ha => by simp [(hz.spaces hs).2 a ha]
  have hopen {z : Zone} {t : Token} {as : List (Token × Role)} (hz : z.Open)
      (ht : t.kind ≠ .leftParen) : Zone.names ((t, (z.next c.dialect t).1) :: as) = Zone.names as := by
    refine Zone.names_cons_of_ne ?_
    rw [hz.next_eq ht, Zone.inSelector]
    split <;> simp
  induction h generalizing z with
  | selector hs hx _ ihx ihy =>
    have hz₁ := (Zone.Open.spaces (d := c.dialect) hz hs).1
    rw [List.filterMap_append, Zone.roles_append, Zone.roles_append, Zone.names_append,
      Zone.names_append, hspaces hz hs, ihx hz₁, ihy (hx.ends hz₁), List.nil_append]
  | noRules | noLinks | noItems | bare | bareUnknown => rfl
  | rules ht hs hx _ ihx ihy =>
    have hz₁ := (Zone.open_selector.spaces (d := c.dialect) hs).1
    rw [List.filterMap_append, Zone.roles, hopen hz (by simp [ht]), Zone.Open.next_eq hz (by simp [ht]),
      Zone.inSelector, ht, Zone.roles_append, Zone.roles_append, Zone.names_append,
      Zone.names_append, hspaces Zone.open_selector hs, ihx hz₁, ihy (hx.ends hz₁), List.nil_append]
  | rule hx hy hs ihx ihy =>
    have hz₁ := hx.ends hz
    rw [List.filterMap_append, Zone.roles_append, Zone.roles_append, Zone.names_append,
      Zone.names_append, hspaces (hy.ends hz₁) hs, ihx hz, ihy hz₁, List.append_nil]
  | links hx _ ihx ihy =>
    rw [List.filterMap_append, Zone.roles_append, Zone.names_append, ihx hz, ihy (hx.ends hz)]
  | descendant hs _ _ ih =>
    rw [Zone.roles_append, Zone.names_append, hspaces hz hs, ← ih (Zone.Open.spaces hz hs).1]
    rfl
  | combinator hs₁ ht _ hs₂ _ ih =>
    have hz₁ := (Zone.Open.spaces (d := c.dialect) hz hs₁).1
    have hz₂ := (Zone.open_selector.spaces (d := c.dialect) hs₂).1
    rw [Zone.roles_append, Zone.names_append, hspaces hz hs₁, Zone.roles,
      hopen hz₁ (by simp [ht]), hz₁.next_eq (by simp [ht]), Zone.inSelector, ht, Zone.roles_append,
      Zone.names_append, hspaces Zone.open_selector hs₂, ← ih hz₂]
    rfl
  | compound _ _ ih => exact ih hz
  | items _ _ hx _ ihx ihy =>
    rw [List.filterMap_append, Zone.roles_append, Zone.names_append, ihx hz, ihy (hx.ends hz)]
  | tagName ht | universal ht | idName ht =>
    rw [Zone.roles, hopen hz (by simp [ht])]
    rfl
  | className ho ht =>
    rw [Zone.roles, hopen hz (by simp [ho]), Zone.Open.next_eq hz (by simp [ho]), Zone.inSelector, ho,
      Zone.roles, hopen Zone.open_selector (by simp [ht])]
    rfl
  | «attribute» ho hx =>
    obtain ⟨ys, close, rfl, hclose, hafter, hroles⟩ := hx.after (d := c.dialect)
    rw [hx.names, Zone.roles, hopen hz (by simp [ho]), Zone.Open.next_eq hz (by simp [ho]),
      Zone.inSelector, ho, Zone.roles_append, Zone.names_append,
      Zone.names_eq_nil fun a ha => by simp [hroles a ha]]
    dsimp only
    rw [hafter, Zone.roles, Zone.next, if_pos hclose]
    rfl
  | @pseudo o t category _ _ _ ho ht _ _ ih =>
    rw [Zone.roles, Zone.Open.next_colons hz ho, Zone.names_cons_of_ne (by simp), Zone.roles,
      Zone.next, if_pos ht]
    exact congrArg (_ :: ·) (ih rfl)
  | @argument category name σ g o t xs _ _ hσ hg ho hx ht ih =>
    cases hz
    rw [Zone.roles, Zone.next_opening hσ hg ho, Zone.names_cons_of_ne (by simp), Zone.roles_append,
      Zone.names_append, Zone.roles, hx.ends rfl t ht, ← ih rfl]
    exact (List.append_nil _).symm
  | loose hσ ho hx ht _ =>
    cases hz
    obtain ⟨us, hroles, hloose⟩ := hx.roles_argument hσ ho ht
    rw [hroles]
    exact (Zone.names_eq_nil fun a ha => by simp [hloose a ha]).symm
  | selectorBody _ ih =>
    cases hz
    exact ih Zone.open_selector
  | formula hx =>
    cases hz
    exact (Zone.names_eq_nil fun a ha => by simp [hx.after.1.2 a ha]).symm
  | formulaAlone hx =>
    cases hz
    exact (Zone.names_eq_nil fun a ha => by simp [(hx.after.2 _).2 a ha]).symm
  | @formulaOf xs ys w t _ _ _ hx hw ht hof _ ih =>
    cases hz
    rw [show xs ++ w :: t :: ys = xs ++ [w] ++ t :: ys by simp, Zone.roles_append, Zone.names_append,
      Zone.ofGrammar, Zone.names_eq_nil fun a ha => by simp [(hx.after.2 _).2 a ha],
      (hx.after.2 _).1, lastKind_append, hw, Zone.roles, Zone.next_keyword ht hof,
      Zone.names_cons_of_ne (by simp)]
    exact ih Zone.open_selector
  | string hx | identifier hx | number hx =>
    cases hz
    exact (Zone.names_eq_nil fun a ha => by simp [(hx.after (by decide)).2 a ha]).symm

end Parse
end CssSelector
