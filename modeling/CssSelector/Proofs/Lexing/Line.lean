import CssSelector.Proofs.Lexing.Error
import CssSelector.Proofs.Scan.Line

/-!
Line ends in lexed texts. Where no escape meets a line feed, a text has the same tokens or the same fault
with carriage returns in front of its line feeds (`lexemes_crLf`). Escapes tell the two sorts of line ends
apart, in strings as well as in names (`lexemes_crLf_joined`).
-/

set_option autoImplicit false

namespace CssSelector

open Text

namespace Text

/-- A carriage return in front of each line feed that has none. The flag tells whether there is one in front
of the text. -/
def toCrLf (returned : Bool) : List Char → List Char
  | [] => []
  | c :: cs =>
    if c = '\n' && !returned then '\r' :: '\n' :: toCrLf false cs else c :: toCrLf (c = '\r') cs

theorem returned_toCrLf (returned : Bool) (cs : List Char) : Returned cs (toCrLf returned cs) := by
  induction cs generalizing returned with
  | nil => exact .nil
  | cons c cs ih =>
    rw [toCrLf]
    split
    case isTrue h =>
      obtain rfl : c = '\n' := by simpa using (Bool.and_eq_true_iff.1 h).1
      exact .widen (ih false)
    case isFalse => exact .keep c (ih _)

end Text

namespace Scan
variable {cs ds : List Char}

theorem commentBody_of_returned (h : Returned cs ds) :
    Returned (commentBody cs).rest (commentBody ds).rest := by
  fun_induction commentBody cs generalizing ds with
  | case1 cs =>
    obtain ⟨ds, rfl, h'⟩ := Returned.exists_of_append ['*', '/'] h (by decide)
    exact h'
  | case2 c cs hno ih =>
    cases h with
    | @keep _ _ ds h =>
      have hno' : ∀ xs, c = '*' → ds = '/' :: xs → False := by
        rintro xs rfl rfl
        cases h with
        | keep => exact hno _ rfl rfl
      rw [commentBody.eq_2 _ _ hno']
      exact ih h
    | widen h =>
      have hrest := ih h
      exact hrest
  | case3 =>
    cases h
    exact .nil

theorem comments_of_returned (h : Returned cs ds) : Returned (comments cs).rest (comments ds).rest := by
  fun_induction comments cs generalizing ds with
  | case1 cs =>
    rename_i ih
    obtain ⟨ds, rfl, h'⟩ := Returned.exists_of_append ['/', '*'] h (by decide)
    change Returned _ (comments ('/' :: '*' :: ds)).rest
    rw [comments]
    exact ih (commentBody_of_returned h')
  | case2 cs hno =>
    have hno' : ∀ xs, ds = '/' :: '*' :: xs → False := by
      rintro xs rfl
      cases h with
      | keep _ h =>
        cases h with
        | keep => exact hno _ rfl
    rw [comments.eq_2 _ hno']
    exact h

end Scan

namespace Lexer

def escapesLine (l : Lexer) : Bool :=
  if l.finished then false
  else Scan.escapesLine (Scan.comments l.input).rest || l.step.2.escapesLine
termination_by l.fuel
decreasing_by exact fuel_step ‹_›

def lexeme (x : Except LexError Token) : Except LexError.Fault (Token.Kind × String) :=
  (x.map fun t => (t.kind, t.text)).mapError LexError.fault

theorem not_escapesLine_of_not_mem {l : Lexer} (hback : '\\' ∉ l.input) : ¬l.escapesLine := by
  induction l using Lexer.run.induct with
  | case1 l hl => simp [escapesLine, hl]
  | case2 l hl ih =>
    have hfront : '\\' ∉ (Scan.comments l.input).rest := by
      rw [← Scan.spelling_comments l.input, List.mem_append, not_or] at hback
      exact hback.2
    have hbehind : '\\' ∉ l.step.2.input := by
      unfold step
      dsimp only
      split
      case h_1 s hs =>
        rw [← Scan.spelling_token hs, List.mem_append, not_or] at hfront
        exact hfront.2
      case h_2 => exact hfront
    rw [escapesLine, if_neg hl, Bool.or_eq_true, not_or]
    exact ⟨Scan.not_escapesLine_of_not_mem hfront, ih hbehind⟩

section
variable {n m : Nat} {cs ds : List Char}

theorem escapesLine_of_backslash (h : ['\\', '\n'] <+: cs) : escapesLine ⟨n, cs, false⟩ := by
  obtain ⟨us, rfl⟩ := h
  rw [escapesLine, if_neg (by simp), Scan.comments_of_head (by simp)]
  simp [Scan.escapesLine]

theorem step_of_returned (h : Returned cs ds) (hesc : ¬escapesLine ⟨n, cs, false⟩) :
    lexeme (step ⟨m, ds, false⟩).1 = lexeme (step ⟨n, cs, false⟩).1 ∧
      (step ⟨m, ds, false⟩).2.finished = (step ⟨n, cs, false⟩).2.finished ∧
      Returned (step ⟨n, cs, false⟩).2.input (step ⟨m, ds, false⟩).2.input := by
  rw [escapesLine, if_neg (by simp), Bool.or_eq_true, not_or] at hesc
  obtain ⟨hfront, hbehind⟩ := hesc
  have hcomments := Scan.comments_of_returned h
  unfold step at hbehind ⊢
  dsimp only at hbehind hfront ⊢
  cases hs : Scan.token (Scan.comments cs).rest with
  | error f =>
    rw [Scan.token_error_of_returned hcomments hs hfront]
    exact ⟨rfl, rfl, hcomments⟩
  | ok s =>
    have hback : ¬['\\', '\n'] <+: s.rest := by
      intro hback
      rw [hs] at hbehind
      dsimp only at hbehind
      by_cases hk : s.value.1 = .endOfInput
      · have hnil := Scan.eq_nil_of_token hs hk
        rw [hnil] at hs
        cases hs
        simp at hback
      · rw [decide_eq_false hk] at hbehind
        exact hbehind (escapesLine_of_backslash hback)
    obtain ⟨t, ht, hvalue, hrest⟩ := Scan.exists_token_of_returned hcomments hs hfront hback
    rw [ht]
    exact ⟨by simp only [lexeme, Except.map, hvalue], by simp only [hvalue], hrest⟩

end

theorem map_lexeme_run_of_returned (l : Lexer) (m : Nat) {ds : List Char} (h : Returned l.input ds)
    (hesc : ¬l.escapesLine) :
    (run ⟨m, ds, l.finished⟩).map lexeme = l.run.map lexeme := by
  induction l using Lexer.run.induct generalizing m ds with
  | case1 l hl => rw [run_of_finished hl, run_of_finished (by exact hl)]
  | case2 l hl ih =>
    obtain ⟨n, cs, f⟩ := l
    obtain rfl : f = false := by simpa using hl
    obtain ⟨hitem, hfinished, hinput⟩ := step_of_returned (m := m) h hesc
    rw [escapesLine, if_neg hl, Bool.or_eq_true, not_or] at hesc
    have htail := ih (step ⟨m, ds, false⟩).2.offset hinput hesc.2
    rw [← hfinished] at htail
    rw [run, if_neg hl, run.eq_1 ⟨n, cs, false⟩, if_neg hl, List.map_cons, List.map_cons, hitem]
    exact congrArg _ htail

end Lexer

/-- Whether an escape meets a line feed somewhere in the text. -/
def escapesLine (text : String) : Bool := (Lexer.ofString text).escapesLine

theorem not_escapesLine_of_not_mem {text : String} (h : '\\' ∉ text.toList) : ¬escapesLine text :=
  Lexer.not_escapesLine_of_not_mem h

def lexemes (text : String) : Except LexError.Fault (List (Token.Kind × String)) :=
  ((tokenize text).map (List.map fun t => (t.kind, t.text))).mapError LexError.fault

theorem lexemes_eq (text : String) :
    lexemes text = ((Lexer.ofString text).run.map Lexer.lexeme).mapM id :=
  (mapM_map_mapError _ _ _).symm

/-- The text with a carriage return in front of every line feed. -/
def crLf (text : String) : String := String.ofList (toCrLf false text.toList)

example : crLf "a\n\r\n\n" = "a\r\n\r\n\r\n" := by cbv

/-- Where no escape meets a line feed a text has the same tokens with carriage returns, or the same fault. -/
theorem lexemes_crLf {text : String} (h : ¬escapesLine text) : lexemes (crLf text) = lexemes text := by
  have hreturned := returned_toCrLf false text.toList
  have hrun := (Lexer.ofString text).map_lexeme_run_of_returned 0 hreturned h
  rw [lexemes_eq, lexemes_eq, crLf, Lexer.ofString, String.toList_ofList]
  exact congrArg (List.mapM id) hrun

/-- Line ends between tokens, in a comment, behind the space that an escape takes, and in a string without
escapes. -/
theorem lexemes_crLf_lines :
    ¬escapesLine "a\n/*\n*/\\41 \nb" ∧
      lexemes (crLf "a\n/*\n*/\\41 \nb") = .ok [(.ident, "a"), (.whitespace, " "), (.ident, "A"),
        (.whitespace, " "), (.ident, "b"), (.endOfInput, "")] ∧
      lexemes (crLf "a\n'b\n'") = .error .unterminatedString := by
  have h : ¬escapesLine "a\n/*\n*/\\41 \nb" := ne_true_of_eq_false (by cbv)
  have h' : ¬escapesLine "a\n'b\n'" := not_escapesLine_of_not_mem (by decide)
  exact ⟨h, (lexemes_crLf h).trans (by cbv), (lexemes_crLf h').trans (by cbv)⟩

/-- A string that goes on behind a line feed ends at the line feed if a carriage return is escaped instead,
and what an escape took of the line end is left over. -/
theorem lexemes_crLf_joined :
    lexemes "\"a\\\nb\"" = .ok [(.string, "ab"), (.endOfInput, "")] ∧
      lexemes (crLf "\"a\\\nb\"") = .error .unterminatedString ∧
      lexemes "\\41\nb" = .ok [(.ident, "Ab"), (.endOfInput, "")] ∧
      lexemes (crLf "\\41\nb") =
        .ok [(.ident, "A"), (.whitespace, " "), (.ident, "b"), (.endOfInput, "")] := by
  refine ⟨?_, ?_, ?_, ?_⟩ <;> cbv

end CssSelector
