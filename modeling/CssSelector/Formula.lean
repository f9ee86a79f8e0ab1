import CssSelector.Text.Basic

/-!
The formula `an+b`, which stands for the positions `a * n + b`, and its microsyntax. Both integers
are signed 32-bit ones; a text with a larger one is no formula.
-/

set_option autoImplicit false

namespace CssSelector

open Text

structure Formula where
  a : Int
  b : Int
  deriving DecidableEq, Repr

namespace Formula

def int32? (z : Int) : Option Int := if -0x80000000 ≤ z ∧ z < 0x80000000 then some z else none

def integer? : List Char → Option Int
  | '+' :: ds => (natural? ds).bind fun n => int32? n
  | '-' :: ds => (natural? ds).bind fun n => int32? (-n)
  | ds => (natural? ds).bind fun n => int32? n

/-- What stands before the letter: a sign alone, or nothing, means one. -/
def coefficient? : List Char → Option Int
  | [] => some 1
  | ['+'] => some 1
  | ['-'] => some (-1)
  | cs => integer? cs

/-- What stands after the letter: nothing, or a sign and digits, with space around the sign. -/
def constant? (cs : List Char) : Option Int :=
  match trimStart cs with
  | [] => some 0
  | '+' :: ds => (natural? (trimStart ds)).bind fun n => int32? n
  | '-' :: ds => ((natural? (trimStart ds)).bind fun n => int32? n).map fun b => -b
  | _ => none

def read? (cs : List Char) : Option Formula :=
  let cs := (trim cs).map Char.toLower
  if cs = ['o', 'd', 'd'] then some ⟨2, 1⟩
  else if cs = ['e', 'v', 'e', 'n'] then some ⟨2, 0⟩
  else
    match cs.dropWhile (· ≠ 'n') with
    | [] => (integer? cs).map fun b => ⟨0, b⟩
    | _ :: rest => do return ⟨← coefficient? (cs.takeWhile (· ≠ 'n')), ← constant? rest⟩

def ofText? (text : String) : Option Formula := read? text.toList

end Formula
end CssSelector
