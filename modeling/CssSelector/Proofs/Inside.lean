import CssSelector.Proofs.Reads

set_option autoImplicit false

namespace CssSelector

def Item.selector? : Item → Option Selector
  | .pseudo _ _ (some (.selector s)) => some s
  | .pseudo _ _ (some (.formulaOfSelector _ s)) => s
  | _ => none

/-- A selector, and all those in arguments of its items, in arguments of their items and so on. -/
inductive Selector.Inside (whole : Selector) : Selector → Prop
  | whole : Inside whole whole
  | argument {s t : Selector} {r : Rule} {i : Item} : Inside whole s → r ∈ s.rules → i ∈ r.items →
      i.selector? = some t → Inside whole t

theorem Selector.Inside.trans {s t u : Selector} (h : s.Inside t) (k : t.Inside u) :
    s.Inside u := by
  induction k with
  | whole => exact h
  | argument _ hr hi hs ih => exact .argument ih hr hi hs

theorem Selector.inside_iff {s t : Selector} : s.Inside t ↔
    t = s ∨ ∃ r ∈ s.rules, ∃ i ∈ r.items, ∃ u, i.selector? = some u ∧ u.Inside t := by
  constructor
  · intro h
    induction h with
    | whole => exact .inl rfl
    | @argument u t r i _ hr hi ht ih =>
      rcases ih with rfl | ⟨r', hr', i', hi', v, hv, hu⟩
      · exact .inr ⟨r, hr, i, hi, t, ht, .whole⟩
      · exact .inr ⟨r', hr', i', hi', v, hv, .argument hu hr hi ht⟩
  · rintro (rfl | ⟨r, hr, i, hi, u, hu, ht⟩)
    · exact .whole
    · exact .trans (.argument .whole hr hi hu) ht

theorem Selector.sizeOf_lt_of_selector? {s t : Selector} {r : Rule} {i : Item} (hr : r ∈ s.rules)
    (hi : i ∈ r.items) (ht : i.selector? = some t) : sizeOf t < sizeOf s := by
  obtain ⟨rs⟩ := s
  obtain ⟨is⟩ := r
  have hrs := List.sizeOf_lt_of_mem hr
  have his := List.sizeOf_lt_of_mem hi
  have hsize : sizeOf t < sizeOf i := by
    unfold Item.selector? at ht
    split at ht
    · cases ht
      simp
      omega
    · subst ht
      simp
      omega
    · contradiction
  simp at hrs his ⊢
  omega

namespace Parse

/-- The items of a phrase, but for those in arguments. -/
def Phrase.content : Phrase → List Item
  | .selector s => s.rules.flatMap Rule.items
  | .rules rs => rs.flatMap Rule.items
  | .rule r => r.items
  | .link is => is
  | .links is => is
  | .compound is => is
  | .items _ is => is
  | .item i => [i]
  | .argument .. => []
  | .body .. => []

/-- An item has been read by itself, or is a combinator and has been mentioned. -/
def Found (c : Context) (ms : List Mention) (i : Item) : Prop :=
  (∃ k n, i = .combinator k ∧ ⟨.combinator k, n⟩ ∈ ms) ∨ ∃ xs ns, Reads c xs (.item i) ns ∧ ns ⊆ ms

section
variable {c : Context} {xs : List Token} {ms ns : List Mention} {i : Item}

theorem Found.mono (h : Found c ms i) (hs : ms ⊆ ns) : Found c ns i := by
  rcases h with ⟨k, n, rfl, hm⟩ | ⟨xs, ls, hx, hl⟩
  · exact .inl ⟨k, n, rfl, hs hm⟩
  · exact .inr ⟨xs, ls, hx, List.Subset.trans hl hs⟩

theorem Reads.found {p : Phrase} (h : Reads c xs p ms) : ∀ i ∈ p.content, Found c ms i := by
  induction h with
  | @selector _ _ _ r rs ms ns _ _ _ ihx ihy =>
    intro i hi
    rw [Phrase.content, List.flatMap_cons, List.mem_append] at hi
    rcases hi with hi | hi
    · exact (ihx i hi).mono (List.subset_append_left _ _)
    · exact (ihy i hi).mono (List.subset_append_right _ _)
  | @rules _ _ _ _ r rs ms ns _ _ _ _ ihx ihy =>
    intro i hi
    rw [Phrase.content, List.flatMap_cons, List.mem_append] at hi
    rcases hi with hi | hi
    · exact (ihx i hi).mono (List.subset_append_left _ _)
    · exact (ihy i hi).mono (List.subset_append_right _ _)
  | @rule _ _ _ is js ms ns _ _ _ ihx ihy =>
    intro i hi
    rcases List.mem_append.1 hi with hi | hi
    · exact (ihx i hi).mono (List.subset_append_left _ _)
    · exact (ihy i hi).mono (List.subset_append_right _ _)
  | @links _ _ is js ms ns _ _ ihx ihy =>
    intro i hi
    rcases List.mem_append.1 hi with hi | hi
    · exact (ihx i hi).mono (List.subset_append_left _ _)
    · exact (ihy i hi).mono (List.subset_append_right _ _)
  | descendant _ _ _ ih =>
    intro i hi
    rcases List.mem_cons.1 hi with rfl | hi
    · exact .inl ⟨_, _, rfl, List.mem_cons_self⟩
    · exact (ih i hi).mono (List.subset_cons_self _ _)
  | combinator _ _ _ _ _ ih =>
    intro i hi
    rcases List.mem_cons.1 hi with rfl | hi
    · exact .inl ⟨_, _, rfl, List.mem_cons_self⟩
    · exact (ih i hi).mono (List.subset_cons_self _ _)
  | compound _ _ ih => exact ih
  | items _ _ hx _ _ ih =>
    intro i hi
    rcases List.mem_cons.1 hi with rfl | hi
    · exact .inr ⟨_, _, hx, List.subset_append_left _ _⟩
    · exact (ih i hi).mono (List.subset_append_right _ _)
  | noRules | noLinks | noItems => simp [Phrase.content]
  | tagName ht hne =>
    exact List.forall_mem_singleton.2 (.inr ⟨_, _, .tagName ht hne, List.Subset.refl _⟩)
  | universal ht =>
    exact List.forall_mem_singleton.2 (.inr ⟨_, _, .universal ht, List.Subset.refl _⟩)
  | className ho ht hne =>
    exact List.forall_mem_singleton.2 (.inr ⟨_, _, .className ho ht hne, List.Subset.refl _⟩)
  | idName ht hne =>
    exact List.forall_mem_singleton.2 (.inr ⟨_, _, .idName ht hne, List.Subset.refl _⟩)
  | «attribute» ho hx =>
    exact List.forall_mem_singleton.2 (.inr ⟨_, _, .attribute ho hx, List.Subset.refl _⟩)
  | pseudo ho ht hne hx =>
    exact List.forall_mem_singleton.2 (.inr ⟨_, _, .pseudo ho ht hne hx, List.Subset.refl _⟩)
  | bare | argument | bareUnknown | loose | selectorBody | formula | formulaAlone | formulaOf |
      string | identifier | number => simp [Phrase.content]

theorem Reads.exists_of_selector? {s : Selector} (h : Reads c xs (.item i) ms)
    (hs : i.selector? = some s) : ∃ ys ns, Reads c ys (.selector s) ns ∧ ns ⊆ ms := by
  cases h with
  | @pseudo o t category xs a ms _ _ _ hx =>
    cases hx with
    | bare | bareUnknown | loose => simp [Item.selector?] at hs
    | @argument _ _ _ _ _ _ ys _ _ _ _ _ hb _ =>
      cases hb with
      | selectorBody hy =>
        cases hs
        exact ⟨ys, ms, hy, List.subset_cons_self _ _⟩
      | @formulaOf _ zs _ _ _ _ _ _ _ _ _ hz =>
        cases hs
        exact ⟨zs, ms, hz, List.subset_cons_self _ _⟩
      | formula | formulaAlone | string | identifier | number => simp [Item.selector?] at hs
  | _ => simp [Item.selector?] at hs

theorem Reads.inside {s t : Selector} (h : Reads c xs (.selector s) ms) (ht : s.Inside t) :
    ∃ ys ns, Reads c ys (.selector t) ns ∧ ns ⊆ ms := by
  induction ht with
  | whole => exact ⟨xs, ms, h, List.Subset.refl _⟩
  | @argument s t r i _ hr hi hs ih =>
    obtain ⟨ys, ns, hy, hn⟩ := ih
    have hf := hy.found i (List.mem_flatMap.2 ⟨r, hr, hi⟩)
    rcases hf with ⟨k, n, rfl, -⟩ | ⟨zs, ls, hz, hl⟩
    · simp [Item.selector?] at hs
    · obtain ⟨vs, ks, hv, hk⟩ := hz.exists_of_selector? hs
      exact ⟨vs, ks, hv, List.Subset.trans hk (List.Subset.trans hl hn)⟩

/-- Every item inside of a selector that has been read has been found. -/
theorem Reads.found_inside {s t : Selector} (h : Reads c xs (.selector s) ms) (ht : s.Inside t)
    {r : Rule} (hr : r ∈ t.rules) (hi : i ∈ r.items) : Found c ms i := by
  obtain ⟨ys, ns, hy, hn⟩ := h.inside ht
  exact (hy.found i (List.mem_flatMap.2 ⟨r, hr, hi⟩)).mono hn

end

end Parse
end CssSelector
