import CssSelector.Token.Basic
import CssSelector.Token.Scan

set_option autoImplicit false

namespace CssSelector

inductive LexError.Fault where
  | unterminatedString
  | invalidCharacter (c : Char)
  deriving DecidableEq, Repr

namespace Scan

/-- The inside of a comment and the mark that closes it, or all there is if nothing does. -/
def commentBody : List Char → Scan Unit
  | '*' :: '/' :: cs => ⟨(), ['*', '/'], cs⟩
  | c :: cs => (commentBody cs).after [c]
  | [] => ⟨(), [], []⟩

theorem spelling_commentBody (cs : List Char) :
    (commentBody cs).spelling ++ (commentBody cs).rest = cs := by
  fun_induction commentBody cs <;> simp_all [after]

def comments : List Char → Scan Unit
  | '/' :: '*' :: cs =>
    let body := commentBody cs
    (comments body.rest).after ('/' :: '*' :: body.spelling)
  | cs => ⟨(), [], cs⟩
termination_by cs => cs.length
decreasing_by
  have := congrArg List.length (spelling_commentBody cs)
  simp at *
  omega

theorem spelling_comments (cs : List Char) :
    (comments cs).spelling ++ (comments cs).rest = cs := by
  fun_induction comments cs with
  | case1 cs body ih => simp [after, ih, body, spelling_commentBody]
  | case2 => rfl

/-- The tokens with one spelling, longer ones before their prefixes. -/
def marks : List (List Char × Token.Kind) :=
  [([':', ':'], .doubleColon), (['~', '='], .attributeOperator), (['|', '='], .attributeOperator),
    (['^', '='], .attributeOperator), (['$', '='], .attributeOperator),
    (['*', '='], .attributeOperator), (['='], .attributeOperator), ([':'], .colon),
    (['('], .leftParen), ([')'], .rightParen), (['['], .leftBracket), ([']'], .rightBracket),
    ([','], .comma), (['.'], .dot), (['*'], .asterisk), (['>'], .combinator),
    (['+'], .combinator), (['~'], .combinator), (['-'], .delim)]

def token : List Char → Except LexError.Fault (Scan (Token.Kind × String))
  | [] => .ok ⟨(.endOfInput, ""), [], []⟩
  | c :: cs =>
    if isSpace c then
      .ok ⟨(.whitespace, " "), c :: cs.takeWhile isSpace, cs.dropWhile isSpace⟩
    else if c = '"' || c = '\'' then
      match quoted c cs with
      | some s => .ok ⟨(.string, String.ofList s.value), c :: s.spelling, s.rest⟩
      | none => .error .unterminatedString
    else if c = '#' && (cs.head?.any isNameChar || startsEscape cs) then
      let s := name cs
      .ok ⟨(.hash, String.ofList s.value), c :: s.spelling, s.rest⟩
    else if startsNumber (c :: cs) then
      let n := numeral (c :: cs)
      .ok ⟨(.number, String.ofList n), n, (c :: cs).drop n.length⟩
    else if startsName (c :: cs) then
      let s := name (c :: cs)
      .ok ⟨(.ident, String.ofList s.value), s.spelling, s.rest⟩
    else match marks.find? fun m => m.1.isPrefixOf (c :: cs) with
      | some (m, kind) => .ok ⟨(kind, String.ofList m), m, (c :: cs).drop m.length⟩
      | none => .error (.invalidCharacter c)

theorem unsignedNumeral_le (cs : List Char) : unsignedNumeral cs <+: cs := by
  have h := List.takeWhile_append_dropWhile (p := Char.isDigit) (l := cs)
  unfold unsignedNumeral
  split
  next d ds hd =>
    split
    · rw [hd] at h
      conv => rhs; rw [← h]
      simpa using List.takeWhile_prefix _
    · exact List.takeWhile_prefix _
  next => exact List.takeWhile_prefix _

theorem numeral_le (cs : List Char) : numeral cs <+: cs := by
  unfold numeral
  split <;> simp [unsignedNumeral_le]

theorem numeral_ne_nil {cs : List Char} (h : startsNumber cs) : numeral cs ≠ [] := by
  unfold numeral
  split
  · simp
  · simp
  next h₁ h₂ =>
    have h : startsDigits cs := by grind [startsNumber]
    unfold startsDigits at h
    split at h
    next d _ => simp [unsignedNumeral, show Char.isDigit '.' = false from rfl, h]
    next =>
      unfold unsignedNumeral
      dsimp only
      repeat' split
      all_goals simp [h]
    next => contradiction

theorem name_ne_nil {cs : List Char} (h : startsName cs) : (name cs).value ≠ [] := by
  unfold name
  split
  next c cs =>
    have : c ≠ '\n' := by
      simpa [startsName, startsEscape, show isNameStart '\\' = false from rfl] using h
    simp [this, push]
  next c cs hc =>
    have : isNameChar c := by
      unfold startsName startsEscape at h
      grind [isNameChar]
    simp [this, push]
  next => contradiction

theorem length_value_name_le (cs : List Char) :
    (name cs).value.length ≤ (name cs).spelling.length := by
  fun_induction name cs <;> grind [push]

theorem spelling_token {cs : List Char} {s : Scan (Token.Kind × String)} (h : token cs = .ok s) :
    s.spelling ++ s.rest = cs := by
  unfold token at h
  split at h
  · cases h; rfl
  repeat' split at h
  all_goals cases h
  · simp
  · simp [spelling_quoted ‹_›]
  · simp [spelling_name]
  · exact (List.prefix_iff_eq_append.1 (numeral_le _))
  · exact spelling_name _
  · have := List.find?_some ‹_›
    exact (List.prefix_iff_eq_append.1 (List.isPrefixOf_iff_prefix.1 this))

theorem spelling_token_ne_nil {cs : List Char} {s : Scan (Token.Kind × String)}
    (h : token cs = .ok s) (k : s.value.1 ≠ .endOfInput) : s.spelling ≠ [] := by
  unfold token at h
  split at h
  · cases h; exact absurd rfl k
  repeat' split at h
  all_goals cases h
  · simp
  · simp
  · simp
  · exact numeral_ne_nil ‹_›
  · intro e
    have := length_value_name_le
    exact name_ne_nil ‹_› (List.length_eq_zero_iff.1 (by grind))
  · have := List.mem_of_find?_eq_some ‹_›
    revert this
    simp [marks]
    grind

end Scan

end CssSelector
