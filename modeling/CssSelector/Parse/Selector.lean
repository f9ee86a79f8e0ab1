import CssSelector.Parse.Argument

/-!
Selectors. Compounds are simple items with nothing between them, rules are compounds joined by
combinators, and lists of rules are tied to the arguments inside of them: arguments are parsed to a
given depth, which is enough where no more parentheses are to come. The error in a text is the first
one in its order, but an error of the lexer comes before all others.
-/

set_option autoImplicit false

namespace CssSelector

inductive ItemStart where
  | tagName
  | universal
  | className
  | idName
  | attribute
  | pseudo (category : Category)
  deriving DecidableEq, Repr

def Token.Kind.itemStart? : Token.Kind → Option ItemStart
  | .ident => some .tagName
  | .asterisk => some .universal
  | .dot => some .className
  | .hash => some .idName
  | .leftBracket => some .attribute
  | .colon => some (.pseudo .pseudoClass)
  | .doubleColon => some (.pseudo .pseudoElement)
  | _ => none

/-- A selector, and the warnings about it in the order of the text. -/
structure Reading where
  selector : Selector
  warnings : List Warning
  deriving Repr

namespace Parse

open CssSelector.Parse.Parser

/-! Attribute selectors, from behind the opening bracket. -/

def attributeValue : Parser String := do
  let t ← front
  if t.kind = .ident ∨ t.kind = .string then
    skip 1
    return t.text
  else expected .attributeValue

def attributeModifier : Parser (Option String) := do
  let t ← front
  if t.kind = .ident then
    skip 1
    judge (.modifier t.text) t.position
    skipSpace
    return some t.text
  else return none

def comparison (name : String) (t : Token) : Parser Item :=
  match AttributeOperator.ofSymbol? t.text with
  | none => failAt t .unexpected
  | some op => do
    judge (.operator op) t.position
    skipSpace
    let value ← attributeValue
    skipSpace
    let modifier ← attributeModifier
    discard <| expect .rightBracket .closingBracket
    built (Item.comparison name op value modifier)

def attributeSelector : Parser Item := do
  skipSpace
  let name ← expect .ident .attributeName
  skipSpace
  let t ← front
  match t.kind with
  | .rightBracket =>
    skip 1
    built (Item.presence name.text)
  | .attributeOperator =>
    skip 1
    comparison name.text t
  | _ => expected .attributeTest

/-! Compounds. -/

/-- Type selectors come first, and nothing comes after a pseudo-element. -/
def checkOrder (previous : Option Item) (t : Token) (k : ItemStart) : Parser Unit :=
  match previous, k with
  | some (.pseudo .pseudoElement ..), _ => fail (.malformed .latePseudoElement t.position)
  | some _, .tagName => failAt t .lateType
  | some _, .universal => failAt t .lateType
  | _, _ => return ()

def simple (nested : Parser Selector) (t : Token) : ItemStart → Parser Item
  | .tagName => built (Item.tag t.text)
  | .universal => return .universal
  | .className => do built (Item.ofClass (← expect .ident .className).text)
  | .idName => built (Item.ofId t.text)
  | .attribute => attributeSelector
  | .pseudo category => pseudo nested category

/-- The item that starts with the token `t`, if one does, after the `previous` one. -/
def itemAt (nested : Parser Selector) (previous : Option Item) (t : Token) :
    Option (Parser (Option Item)) :=
  t.kind.itemStart?.map fun k => do
    checkOrder previous t k
    return some (← simple nested t k)

def compound (nested : Parser Selector) : Parser (List Item) := do
  let items ← many (itemAt nested)
  if items.isEmpty then expected .selector else return items

/-! Rules, and lists of them. -/

def link (nested : Parser Selector) (k : Combinator) (position : Nat) : Parser (List Item) := do
  judge (.combinator k) position
  skipSpace
  return .combinator k :: (← compound nested)

def explicitLink (nested : Parser Selector) (t : Token) : Parser (List Item) :=
  match Combinator.ofSymbol? t.text with
  | some k => link nested k t.position
  | none => failAt t .unexpected

/-- The link after white space, if the rule goes on there. White space is a combinator only where no
other one comes after it. -/
def spacedLink (nested : Parser Selector) : Parser (Option (List Item)) := do
  skipSpace
  let t ← front
  match t.kind with
  | .comma | .rightParen | .endOfInput => return none
  | .combinator =>
    skip 1
    return some (← explicitLink nested t)
  | _ => return some (← link nested .descendant t.position)

def linkAt (nested : Parser Selector) (t : Token) : Option (Parser (Option (List Item))) :=
  match t.kind with
  | .comma | .rightParen => none
  | .whitespace => some (spacedLink nested)
  | .combinator => some do return some (← explicitLink nested t)
  | _ => some (failAt t .unexpected)

def rule (nested : Parser Selector) : Parser Rule := do
  let first ← compound nested
  let links ← many fun _ => linkAt nested
  return ⟨first ++ links.flatten⟩

def spacedRule (nested : Parser Selector) : Parser Rule := do
  skipSpace
  rule nested

def ruleAt (nested : Parser Selector) (t : Token) : Option (Parser (Option Rule)) :=
  if t.kind = .comma then some do return some (← spacedRule nested) else none

def rules (nested : Parser Selector) : Parser (List Rule) := do
  let first ← spacedRule nested
  let others ← many fun _ => ruleAt nested
  return first :: others

/-- Selectors whose arguments hold selectors, `depth` of them one in another. -/
def selectorTo : Nat → Parser Selector
  | 0 => fail (.defect .depth)
  | depth + 1 => do return ⟨← rules (selectorTo depth)⟩

def opensArgument (t : Token) : Bool := t.kind = .leftParen

/-- All tokens as a selector. No argument is nested deeper than there are parentheses. -/
def wholeSelector : Parser Selector := do
  let s ← selectorTo ((← ahead).countP opensArgument + 1)
  if (← ahead).isEmpty then return s else unexpected

end Parse

namespace Dialect

open Parse

def parseTokens (d : Dialect) (source : List Char) (ts : List Token) :
    Except ParseError Reading :=
  let s := wholeSelector.run ⟨d, source⟩ ts
  s.result.map (⟨·, s.warnings⟩)

def parse (d : Dialect) (text : String) : Except ParseError Reading := do
  let ts ← (tokenize text).mapError .lex
  d.parseTokens text.toList ts.dropLast

end Dialect
end CssSelector
