import CssSelector.Formula
import CssSelector.Parse.Basic

/-!
Formulas among tokens, from behind the opening parenthesis. The text of a formula is put together
from its tokens, so that comments are gone and escapes resolved; an error message quotes the source
instead where a token is among them that no formula has.
-/

set_option autoImplicit false

namespace CssSelector.Parse

open Text

def formulaText? (t : Token) : Option (List Char) :=
  match t.kind with
  | .number | .ident | .delim | .combinator => some t.text.toList
  | .whitespace => some [' ']
  | _ => none

/-- Tokens up to a limit, or up to the parenthesis that closes the argument: how many they are, and
what they say if all of them can stand in a formula. -/
structure FormulaRun where
  length : Nat
  text : Option (List Char)
  deriving Repr

def FormulaRun.empty : FormulaRun := ⟨0, some []⟩

def FormulaRun.push (t : Token) (r : FormulaRun) : FormulaRun :=
  ⟨r.length + 1, do return (← formulaText? t) ++ (← r.text)⟩

/-- At most `limit` tokens, where `depth` parentheses are open; none if the input ends before. -/
def formulaRun (limit : Option Nat) (depth : Nat) : List Token → Option FormulaRun
  | [] => if limit = some 0 then some .empty else none
  | t :: ts =>
    if limit = some 0 then some .empty
    else
      let limit := limit.map (· - 1)
      match t.kind, depth with
      | .rightParen, 0 => some .empty
      | .rightParen, depth + 1 => (formulaRun limit depth ts).map (.push t)
      | .leftParen, _ => (formulaRun limit (depth + 1) ts).map (.push t)
      | _, _ => (formulaRun limit depth ts).map (.push t)

/-- How many tokens stand before the keyword `of`, which white space must come before. -/
def ofKeyword? (previous : Token.Kind) (depth : Nat) : List Token → Option Nat
  | [] => none
  | t :: ts =>
    match t.kind, depth with
    | .leftParen, _ => (ofKeyword? t.kind (depth + 1) ts).map (· + 1)
    | .rightParen, 0 => none
    | .rightParen, depth + 1 => (ofKeyword? t.kind depth ts).map (· + 1)
    | .ident, 0 =>
      if sameLetters t.text "of" ∧ previous = .whitespace then some 0
      else (ofKeyword? t.kind 0 ts).map (· + 1)
    | _, _ => (ofKeyword? t.kind depth ts).map (· + 1)

open CssSelector.Parse.Parser

def invalidFormula (text : List Char) (position : Nat) : Parser Formula :=
  fail (.malformed (.invalidFormula (String.ofList (trim text))) position)

/-- The formula up to `limit` tokens ahead, or in all of an argument. The parenthesis that opened the
argument is at the offset `start`. -/
def formula (start : Nat) (limit : Option Nat) : Parser Formula := do
  let ts ← ahead
  match formulaRun limit 0 ts with
  | none => fail (.malformed .unclosedParen start)
  | some run =>
    let position := ((← context).front (ts.dropWhile Token.isSpace)).position
    skip run.length
    match run.text with
    | some text =>
      match Formula.read? (trim text) with
      | some f => return f
      | none => invalidFormula text position
    | none => invalidFormula (← written position (← front).position) position

end CssSelector.Parse
