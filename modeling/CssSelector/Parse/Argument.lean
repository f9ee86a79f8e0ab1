import CssSelector.Parse.Formula

/-!
Pseudo-classes and pseudo-elements, from behind their colons, and their arguments. Arguments hold
selectors, so everything here is relative to a parser of those.
-/

set_option autoImplicit false

namespace CssSelector.Parse

open CssSelector.Parse.Parser Text

/-- How many tokens stand before the parenthesis that closes an argument, where `depth` are open
inside. -/
def closing? (depth : Nat) : List Token → Option Nat
  | [] => none
  | t :: ts =>
    match t.kind, depth with
    | .rightParen, 0 => some 0
    | .rightParen, depth + 1 => (closing? depth ts).map (· + 1)
    | .leftParen, _ => (closing? (depth + 1) ts).map (· + 1)
    | _, _ => (closing? depth ts).map (· + 1)

/-- The argument of a name that is not known: any text with balanced parentheses, as written. -/
def looseArgument : Parser (Option Argument) := do
  let t ← front
  if t.kind = .leftParen then
    skip 1
    match closing? 0 (← ahead) with
    | none => fail (.malformed .unclosedParen t.position)
    | some n =>
      let start := (← front).position
      skip n
      let text ← written start (← front).position
      skip 1
      return some (.string (String.ofList (trim text)))
  else return none

def literal (kind : Token.Kind) (what : Expectation) : Parser Token := do
  skipSpace
  let t ← expect kind what
  skipSpace
  return t

def number : Parser Binary64 := do
  let t ← literal .number .number
  match Binary64.ofNumeral? t.text.toList with
  | some x => return x
  | none => fail (.malformed (.invalidNumber t.text) t.position)

def formulaOfSelector (nested : Parser Selector) (start : Nat) : Parser Argument := do
  match ofKeyword? .leftParen 0 (← ahead) with
  | none => return .formulaOfSelector (← formula start none) none
  | some n =>
    let f ← formula start (some n)
    skip 1
    return .formulaOfSelector f (some (← nested))

def argumentBody (nested : Parser Selector) (start : Nat) : ArgumentGrammar → Parser Argument
  | .noArgument => fail (.malformed .unexpectedArgument start)
  | .selector => return .selector (← nested)
  | .formula => return .formula (← formula start none)
  | .formulaOfSelector => formulaOfSelector nested start
  | .string => return .string (← literal .string .string).text
  | .identifier => return .identifier (← literal .ident .identifier).text
  | .number => return .number (← number)

def knownArgument (nested : Parser Selector) (category : Category) (name : String)
    (s : Signature) : Parser (Option Argument) := do
  let t ← front
  if t.kind = .leftParen then
    skip 1
    match s.argument with
    | none | some .noArgument => fail (.malformed (.needlessArgument category name) t.position)
    | some g =>
      let a ← argumentBody nested t.position g
      discard <| expect .rightParen .closingParen
      return some a
  else if s.bare then return none
  else fail (.malformed (.missingArgument category name) t.position)

def pseudoArgument (nested : Parser Selector) (category : Category) (t : Token) :
    Parser (Option Argument) := do
  match (← context).dialect.signature? category t.text with
  | some s => knownArgument nested category t.text s
  | none =>
    judge (.pseudo category t.text) t.position
    looseArgument

def pseudo (nested : Parser Selector) (category : Category) : Parser Item := do
  let t ← expect .ident (.pseudoName category)
  let argument ← pseudoArgument nested category t
  built (Item.ofPseudo category t.text argument)

end CssSelector.Parse
