import CssSelector.Proofs.Reads.Nested

set_option autoImplicit false

namespace CssSelector

def Selector.single (i : Item) : Selector := ⟨[⟨[i]⟩]⟩

namespace Parse

section
variable {c : Context} {xs us : List Token} {ms : List Mention} {i : Item}

theorem Reads.ne_nil_of_link {is : List Item} (h : Reads c xs (.link is) ms) : is ≠ [] := by
  cases h <;> simp

theorem Reads.eq_nil_of_links (h : Reads c xs (.links []) ms) : xs = [] ∧ ms = [] := by
  generalize his : ([] : List Item) = is at h
  cases h with
  | noLinks => exact ⟨rfl, rfl⟩
  | links hl _ => exact absurd (List.append_eq_nil_iff.1 his.symm).1 hl.ne_nil_of_link

theorem Reads.item_of_compound (h : Reads c xs (.compound [i]) ms) : Reads c xs (.item i) ms := by
  cases h with
  | compound _ h =>
    cases h with
    | items _ _ hx hy =>
      cases hy with
      | noItems => simpa using hx

theorem Reads.single_of_item {k : ItemStart} (hi : i.start? = some k)
    (h : Reads c xs (.item i) ms) : Reads c xs (.selector (.single i)) ms := by
  have hcompound := Reads.compound (by simp) (h.items hi rfl .noItems)
  have hrule := hcompound.rule .noLinks Spaces.nil
  simpa [Selector.single] using Reads.selector Spaces.nil hrule .noRules

/-- White space may stand on both sides of a single item. -/
theorem Reads.item_of_single (h : Reads c xs (.selector (.single i)) ms) :
    ∃ s₁ ys s₂, xs = s₁ ++ (ys ++ s₂) ∧ Spaces s₁ ∧ Spaces s₂ ∧ Reads c ys (.item i) ms := by
  cases h with
  | selector hs₁ hx hy =>
    cases hy with
    | noRules =>
      generalize hr : (⟨[i]⟩ : Rule) = r at hx
      cases hx with
      | @rule s₂ ys zs is js ns ks hc hl hs₂ =>
        obtain ⟨rfl, rfl⟩ : is = [i] ∧ js = [] := by
          have his : is ≠ [] := by
            cases hc with
            | compound hne _ => exact hne
          cases is with
          | nil => contradiction
          | cons j is => simpa [eq_comm, and_assoc] using hr
        obtain ⟨rfl, rfl⟩ := hl.eq_nil_of_links
        exact ⟨_, ys, s₂, by simp, hs₁, hs₂, by simpa using hc.item_of_compound⟩

theorem Reads.argument_of_single {o t : Token} {category : Category}
    (ho : o.kind.itemStart? = some (.pseudo category))
    (h : Reads c (o :: t :: us) (.selector (.single i)) ms) :
    ∃ vs s a ns, us = vs ++ s ∧ Spaces s ∧ i = .pseudo category t.text a ∧
      ms = ⟨.pseudo category t.text, t.position⟩ :: ns ∧
      Reads c vs (.argument category t.text a) ns := by
  obtain ⟨s₁, ys, s₂, hx, hs₁, hs₂, hi⟩ := h.item_of_single
  obtain rfl : s₁ = [] := by
    cases s₁ with
    | nil => rfl
    | cons w s₁ =>
      obtain ⟨rfl, -⟩ := List.cons.inj hx
      simp [hs₁ o List.mem_cons_self, Token.Kind.itemStart?] at ho
  obtain ⟨u, zs, k, rfl, -⟩ := hi.item_head
  obtain ⟨rfl, htail⟩ := List.cons.inj hx
  obtain ⟨t', vs, a, ns, rfl, rfl, rfl, ha⟩ := hi.pseudo_of_item ho
  obtain ⟨rfl, rfl⟩ := List.cons.inj htail
  exact ⟨vs, s₂, a, ns, rfl, hs₂, rfl, rfl, ha⟩

end

end Parse
end CssSelector
