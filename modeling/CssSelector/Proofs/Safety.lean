import CssSelector.Proofs.Cursor
import CssSelector.Proofs.Formula.Range
import CssSelector.Proofs.Report
import CssSelector.Proofs.Tiling

/-!
Parsing is safe: whatever the text and the dialect, it comes to a tree or to an error of the text.
No index, slice or subtraction is out of range, no name is empty, no number overflows, and the
branches for what cannot happen are not taken (`Dialect.parse_safe`).
-/

set_option autoImplicit false

namespace CssSelector

open Parse Text

section
variable {text : String} {all : List Token}

theorem tokens_of_tokenize (d : Dialect) (h : tokenize text = .ok all) :
    all = all.dropLast ++ [Context.front ⟨d, text.toList⟩ []] ∧
      ∀ t ∈ all.dropLast, t.kind ≠ .endOfInput := by
  obtain ⟨us, rfl, hus⟩ := (tiles_of_tokenize h).last
  rw [List.dropLast_concat]
  exact ⟨rfl, hus⟩

def Parse.Site.ofTokenize (d : Dialect) (h : tokenize text = .ok all) : Site where
  context := ⟨d, text.toList⟩
  tokens := all.dropLast
  lexed := by
    rw [← (tokens_of_tokenize d h).1]
    exact (tokenize_eq_ok h).1

namespace Dialect
variable {d : Dialect}

theorem allows_of_parse (h : tokenize text = .ok all) {e : ParseError}
    (he : d.parse text = .error e) : (Site.ofTokenize d h).Allows e := by
  have hreports := (Site.ofTokenize d h).wholeSelector
  rw [parse_of_tokenize h, parseTokens] at he
  refine hreports.error e ?_
  cases hr : (wholeSelector.run ⟨d, text.toList⟩ all.dropLast).result with
  | error e' =>
    rw [hr] at he
    cases he
    exact hr
  | ok s =>
    rw [hr] at he
    contradiction

theorem possible_of_parse {e : ParseError} (he : d.parse text = .error e) :
    (∀ x, e ≠ .defect x) ∧ ∀ flaw n, e = .malformed flaw n → flaw.Possible := by
  cases ht : tokenize text with
  | error x =>
    rw [parse_of_lexError ht] at he
    cases he
    exact ⟨by simp, by simp⟩
  | ok all =>
    have ha := allows_of_parse ht he
    refine ⟨fun x hx => ?_, fun flaw n hf => ?_⟩
    · rw [hx] at ha
      cases ha
    · rw [hf] at ha
      cases ha with
      | malformed possible _ => exact possible

/-- Nothing goes wrong in parsing a text. What is left to a parser at any time is a suffix of the
tokens of the text, and `cursor` speaks of all of these. -/
structure Safe (d : Dialect) (text : String) : Prop where
  noDefect : ∀ x, d.parse text ≠ .error (.defect x)
  noUnexpectedArgument : ∀ n, d.parse text ≠ .error (.malformed .unexpectedArgument n)
  noInvalidNumber : ∀ s n, d.parse text ≠ .error (.malformed (.invalidNumber s) n)
  proper : ∀ all, tokenize text = .ok all → ∀ t ∈ all, t.Proper
  cursor : ∀ all us, tokenize text = .ok all → us <:+ all.dropLast →
    Cursor.Agrees ⟨d, text.toList⟩ all us
  formula : ∀ cs f, Formula.read? cs = some f → Formula.IsInt32 f.a ∧ Formula.IsInt32 f.b

/-- Whatever the text and the dialect, nothing goes wrong in parsing. -/
theorem parse_safe (d : Dialect) (text : String) : d.Safe text where
  noDefect x he := (possible_of_parse he).1 x rfl
  noUnexpectedArgument n he := (possible_of_parse he).2 _ n rfl
  noInvalidNumber s n he := (possible_of_parse he).2 _ n rfl
  proper all h := (tokenize_eq_ok h).1.proper
  cursor all us h hu := by
    obtain ⟨hall, hinner⟩ := tokens_of_tokenize d h
    rw [hall]
    exact Cursor.agrees hinner hu
  formula _ _ := Formula.isInt32_of_read?

end Dialect
end
end CssSelector
