import CssSelector.Proofs.Inside
import CssSelector.Proofs.Reads.Complete
import Mathlib

set_option autoImplicit false

namespace CssSelector

def Argument.grammar : Argument → ArgumentGrammar
  | .selector _ => .selector
  | .string _ => .string
  | .number _ => .number
  | .identifier _ => .identifier
  | .formula _ => .formula
  | .formulaOfSelector .. => .formulaOfSelector

namespace Signature

/-- A missing argument may be missing, and one that is there has the grammar of the signature. -/
def Allows (s : Signature) : Option Argument → Prop
  | none => s.bare
  | some a => ∃ g, s.argument = some g ∧ g ≠ .noArgument ∧ a.grammar = g

end Signature

/-- The argument of a name that is not known is a text or absent. -/
def Item.Conforms (d : Dialect) : Item → Prop
  | .pseudo category name a =>
    match d.signature? category name with
    | some s => s.Allows a
    | none => d.policyOn (.pseudo category name) ≠ .reject ∧ ∀ x ∈ a, x.grammar = .string
  | .attribute a => (∀ op ∈ a.operator, d.admits (.operator op)) ∧
    ∀ text ∈ a.modifier, d.admits (.modifier text)
  | .combinator k => d.admits (.combinator k)
  | _ => True

namespace Parse

section
variable {c : Context} {xs : List Token} {ms : List Mention}

theorem Reads.body_grammar {g : ArgumentGrammar} {a : Argument} (h : Reads c xs (.body g a) ms) :
    g ≠ .noArgument ∧ a.grammar = g := by
  cases h <;> exact ⟨by simp, rfl⟩

theorem Reads.argument_allows {category : Category} {name : String} {a : Option Argument}
    {s : Signature} (h : Reads c xs (.argument category name a) ms)
    (hs : c.dialect.signature? category name = some s) : s.Allows a := by
  cases h with
  | bare hs' hb =>
    cases hs.symm.trans hs'
    exact hb
  | argument hs' hg _ hx _ =>
    cases hs.symm.trans hs'
    exact ⟨_, hg, hx.body_grammar⟩
  | bareUnknown hs' | loose hs' => simp [hs] at hs'

theorem Reads.argument_string {category : Category} {name : String} {a : Option Argument}
    (h : Reads c xs (.argument category name a) ms)
    (hs : c.dialect.signature? category name = none) : ∀ x ∈ a, x.grammar = .string := by
  cases h with
  | bare hs' => simp [hs] at hs'
  | argument hs' => simp [hs] at hs'
  | bareUnknown => simp
  | loose => simp [Argument.grammar]

theorem ReadsAttribute.conforms {d : Dialect} {a : Attribute} (h : ReadsAttribute xs a ms)
    (hm : ∀ m ∈ ms, d.admits m.feature) : (Item.attribute a).Conforms d := by
  cases h with
  | presence => exact ⟨by simp, by simp⟩
  | comparison _ _ _ _ _ _ _ _ _ hx _ =>
    obtain ⟨ho, hm⟩ := List.forall_mem_cons.1 hm
    refine ⟨by simpa using ho, ?_⟩
    cases hx with
    | none => simp
    | some => simpa using hm

theorem Reads.item_conforms {i : Item} (h : Reads c xs (.item i) ms)
    (hm : ∀ m ∈ ms, c.dialect.admits m.feature) : i.Conforms c.dialect := by
  cases h with
  | tagName | universal | className | idName => trivial
  | «attribute» _ hx => exact hx.conforms hm
  | @pseudo _ t category _ a _ _ _ _ hx =>
    obtain ⟨hp, -⟩ := List.forall_mem_cons.1 hm
    rw [Item.Conforms]
    cases hs : c.dialect.signature? category t.text with
    | some s => exact hx.argument_allows hs
    | none =>
      refine ⟨?_, hx.argument_string hs⟩
      simpa [Dialect.admits, Dialect.recognises, hs] using hp

end

end Parse

namespace Dialect

/-- Every item of a parsed selector, or of a selector inside of it, conforms to the dialect. -/
theorem conforms_of_parse {d : Dialect} {text : String} {r : Reading} (h : d.parse text = .ok r)
    {s : Selector} (hs : r.selector.Inside s) {rule : Rule} (hr : rule ∈ s.rules) {i : Item}
    (hi : i ∈ rule.items) : i.Conforms d := by
  obtain ⟨ts, -, ms, hx, hp, -⟩ := parse_eq_ok.1 h
  rcases hx.found_inside hs hr hi with ⟨k, n, rfl, hm⟩ | ⟨xs, ns, hx, hn⟩
  · exact hp _ hm
  · exact hx.item_conforms fun m hm => hp m (hn hm)

theorem conforms_of_unknown :
    let d : Dialect :=
      ⟨.insert .empty "not" (.required .selector), .empty, .accept, .accept, {}, {}⟩
    let unknown : Item := .pseudo .pseudoElement "x" (some (.string "1"))
    let inner : Selector := ⟨[⟨[.className "b", unknown]⟩]⟩
    let whole : Selector := ⟨[⟨[.pseudo .pseudoClass "not" (some (.selector inner))]⟩]⟩
    d.parse ":not(.b::x( 1 ))" = .ok ⟨whole, []⟩ ∧
      whole.Inside inner ∧ unknown.Conforms d := by
  intro d unknown inner whole
  have hr : d.parse ":not(.b::x( 1 ))" = .ok ⟨whole, []⟩ := by cbv
  have hi : whole.Inside inner := .argument .whole List.mem_cons_self List.mem_cons_self rfl
  exact ⟨hr, hi, conforms_of_parse hr hi List.mem_cons_self
    (List.mem_cons_of_mem _ List.mem_cons_self)⟩

end Dialect
end CssSelector
