import CssSelector.Token.Lexeme
import CssSelector.Text.Offset

/-!
The lexer. It hands out one token at a time, after the comments before it, and is finished after the
token for the end of the input or after the first error. `tokenize` collects all of them.
-/

set_option autoImplicit false

namespace CssSelector

open Text

/-- The position is that of the opening quote or of the character. -/
structure LexError where
  fault : LexError.Fault
  position : Nat
  deriving DecidableEq, Repr

def LexError.message (e : LexError) : String :=
  match e.fault with
  | .unterminatedString => "Unterminated string starting at offset " ++ toString e.position ++ "."
  | .invalidCharacter c =>
    "Unexpected character \"" ++ c.toString ++ "\" at offset " ++ toString e.position ++ "."

/-- What is left to read, from the byte `offset` on. -/
structure Lexer where
  offset : Nat
  input : List Char
  finished : Bool
  deriving DecidableEq, Repr

namespace Lexer

def ofString (text : String) : Lexer := ⟨0, text.toList, false⟩

def step (l : Lexer) : Except LexError Token × Lexer :=
  let before := Scan.comments l.input
  let start := l.offset + byteSize before.spelling
  match Scan.token before.rest with
  | .ok s =>
    (.ok ⟨s.value.1, s.value.2, start⟩,
      ⟨start + byteSize s.spelling, s.rest, s.value.1 = .endOfInput⟩)
  | .error fault => (.error ⟨fault, start⟩, ⟨start, before.rest, true⟩)

def next? (l : Lexer) : Option (Except LexError Token × Lexer) :=
  if l.finished then none else some l.step

def fuel (l : Lexer) : Nat := if l.finished then 0 else l.input.length + 1

theorem fuel_step {l : Lexer} (h : ¬l.finished) : l.step.2.fuel < l.fuel := by
  have hl := congrArg List.length (Scan.spelling_comments l.input)
  unfold step
  dsimp only
  split
  next s hs =>
    have hr := congrArg List.length (Scan.spelling_token hs)
    by_cases k : s.value.1 = .endOfInput
    · simp [fuel, *]
    · have := List.length_pos_iff.2 (Scan.spelling_token_ne_nil hs k)
      simp [fuel, *] at *
      omega
  next => simp [fuel, *]

def run (l : Lexer) : List (Except LexError Token) :=
  if l.finished then [] else l.step.1 :: l.step.2.run
termination_by l.fuel
decreasing_by exact fuel_step ‹_›

end Lexer

/-- All tokens of a text, of which the last one is the end of the input. -/
def tokenize (text : String) : Except LexError (List Token) := (Lexer.ofString text).run.mapM id

end CssSelector
