import CssSelector.Proofs.Inside
import CssSelector.Proofs.Reads.Complete
import Mathlib

set_option autoImplicit false

namespace CssSelector

namespace Item

def isType : Item → Bool
  | .tagName _ => true
  | .universal => true
  | _ => false

def isPseudoElement : Item → Bool
  | .pseudo .pseudoElement .. => true
  | _ => false

/-- An item of a compound, with names that are not empty. An attribute has a value exactly with an
operator, and a modifier only with one. -/
def Simple : Item → Prop
  | .tagName name => name ≠ ""
  | .universal => True
  | .className name => name ≠ ""
  | .idName name => name ≠ ""
  | .attribute a => a.name ≠ "" ∧ (a.value.isSome ↔ a.operator.isSome) ∧
    (a.modifier.isSome → a.operator.isSome)
  | .pseudo _ name _ => name ≠ ""
  | .combinator _ => False

theorem start_of_isType {i : Item} {k : ItemStart} (h : i.isType) (hk : i.start? = some k) :
    k = .tagName ∨ k = .universal := by
  cases i with
  | tagName name =>
    cases hk
    exact .inl rfl
  | universal =>
    cases hk
    exact .inr rfl
  | _ => simp [isType] at h

theorem not_isPseudoElement_of_mayFollow {i : Item} {k : ItemStart} (h : k.mayFollow (some i)) :
    ¬i.isPseudoElement := by
  intro hi
  refine ItemStart.start?_ne_of_mayFollow h ?_
  unfold isPseudoElement at hi
  split at hi
  next => rfl
  next => contradiction

end Item

structure IsCompound (is : List Item) : Prop where
  nonempty : is ≠ []
  simple : ∀ i ∈ is, i.Simple
  type_first : ∀ i ∈ is.tail, ¬i.isType
  pseudoElement_last : ∀ i ∈ is.dropLast, ¬i.isPseudoElement

inductive IsChain : List Item → Prop
  | compound {is : List Item} : IsCompound is → IsChain is
  | combinator {is js : List Item} {k : Combinator} : IsCompound is → IsChain js →
      IsChain (is ++ .combinator k :: js)

structure Selector.WellFormed (s : Selector) : Prop where
  nonempty : s.rules ≠ []
  chains : ∀ r ∈ s.rules, IsChain r.items

namespace Parse

def Phrase.WellFormed : Phrase → Prop
  | .selector s => s.WellFormed
  | .rules rs => ∀ r ∈ rs, IsChain r.items
  | .rule r => IsChain r.items
  | .link is => ∃ k js, is = .combinator k :: js ∧ IsCompound js
  | .links is => ∀ js, IsCompound js → IsChain (js ++ is)
  | .compound is => IsCompound is
  | .items previous is => (∀ i ∈ is, i.Simple) ∧ (∀ i ∈ is, i.isType → previous = none) ∧
    (∀ i ∈ is.tail, ¬i.isType) ∧ ∀ i ∈ (previous.toList ++ is).dropLast, ¬i.isPseudoElement
  | .item i => i.Simple
  | .argument .. => True
  | .body .. => True

theorem ReadsAttribute.simple {xs : List Token} {a : Attribute} {ms : List Mention}
    (h : ReadsAttribute xs a ms) : (Item.attribute a).Simple := by
  cases h with
  | presence _ _ hne _ _ => exact ⟨hne, by simp, by simp⟩
  | comparison _ _ hne => exact ⟨hne, by simp, by simp⟩

theorem Reads.wellFormed {c : Context} {xs : List Token} {p : Phrase} {ms : List Mention}
    (h : Reads c xs p ms) : p.WellFormed := by
  induction h with
  | selector _ _ _ ihx ihy => exact ⟨by simp, List.forall_mem_cons.2 ⟨ihx, ihy⟩⟩
  | noRules => simp [Phrase.WellFormed]
  | rules _ _ _ _ ihx ihy => exact List.forall_mem_cons.2 ⟨ihx, ihy⟩
  | rule _ _ _ ihx ihy => exact ihy _ ihx
  | noLinks =>
    intro js hj
    rw [List.append_nil]
    exact .compound hj
  | links _ _ ihx ihy =>
    obtain ⟨k, ks, rfl, hk⟩ := ihx
    intro js hj
    exact .combinator hj (ihy ks hk)
  | descendant _ _ _ ih => exact ⟨_, _, rfl, ih⟩
  | combinator _ _ _ _ _ ih => exact ⟨_, _, rfl, ih⟩
  | compound hne _ ih =>
    obtain ⟨hs, -, ht, hp⟩ := ih
    exact ⟨hne, hs, ht, hp⟩
  | @noItems previous => cases previous <;> simp [Phrase.WellFormed]
  | @items previous i is k _ _ _ _ hk hf _ _ ihx ihy =>
    obtain ⟨hs, ht, htt, hp⟩ := ihy
    have hnone : ∀ j ∈ is, ¬j.isType := fun j hj hjt => by simpa using ht j hj hjt
    refine ⟨List.forall_mem_cons.2 ⟨ihx, hs⟩, ?_, hnone, ?_⟩
    · intro j hj hjt
      rcases List.mem_cons.1 hj with rfl | hj
      · exact ItemStart.eq_none_of_mayFollow (Item.start_of_isType hjt hk) hf
      · exact absurd hjt (hnone j hj)
    · cases previous with
      | none => exact hp
      | some p => exact List.forall_mem_cons.2 ⟨Item.not_isPseudoElement_of_mayFollow hf, hp⟩
  | tagName _ hne => exact hne
  | universal => trivial
  | className _ _ hne => exact hne
  | idName _ hne => exact hne
  | «attribute» _ hx => exact hx.simple
  | pseudo _ _ hne => exact hne
  | bare | argument | bareUnknown | loose | selectorBody | formula | formulaAlone | formulaOf |
      string | identifier | number => trivial

end Parse

namespace Dialect

/-- A parsed selector is well formed, and so is every selector inside of it. -/
theorem wellFormed_of_parse {d : Dialect} {text : String} {r : Reading} (h : d.parse text = .ok r)
    {s : Selector} (hs : r.selector.Inside s) : s.WellFormed := by
  obtain ⟨ts, -, ms, hr, -⟩ := parse_eq_ok.1 h
  obtain ⟨xs, ns, hx, -⟩ := hr.inside hs
  exact hx.wellFormed

theorem wellFormed_in_not :
    let d : Dialect :=
      ⟨.insert .empty "not" (.required .selector), .empty, .accept, .accept, {}, {}⟩
    let inner : Selector := ⟨[⟨[.className "b", .combinator .child, .tagName "c"]⟩]⟩
    let whole : Selector :=
      ⟨[⟨[.tagName "a", .pseudo .pseudoClass "not" (some (.selector inner))]⟩]⟩
    d.parse "a:not(.b > c)" = .ok ⟨whole, []⟩ ∧ whole.Inside inner ∧ inner.WellFormed := by
  intro d inner whole
  have hr : d.parse "a:not(.b > c)" = .ok ⟨whole, []⟩ := by cbv
  have hi : whole.Inside inner :=
    .argument .whole List.mem_cons_self (List.mem_cons_of_mem _ List.mem_cons_self) rfl
  exact ⟨hr, hi, wellFormed_of_parse hr hi⟩

end Dialect
end CssSelector
