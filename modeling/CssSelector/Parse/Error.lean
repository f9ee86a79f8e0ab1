import CssSelector.Selector.Basic
import CssSelector.Token.Lexer

set_option autoImplicit false

namespace CssSelector

inductive Expectation where
  | selector
  | className
  | attributeName
  | attributeTest
  | attributeValue
  | closingBracket
  | closingParen
  | pseudoName (category : Category)
  | string
  | identifier
  | number
  deriving DecidableEq, Repr

def Expectation.describe : Expectation → String
  | .selector => "a selector"
  | .className => "a class name after \".\""
  | .attributeName => "an attribute name after \"[\""
  | .attributeTest => "\"]\" or an attribute operator"
  | .attributeValue => "an attribute value"
  | .closingBracket => "\"]\""
  | .closingParen => "\")\""
  | .pseudoName c => "a " ++ c.name ++ " name after \"" ++ c.colons ++ "\""
  | .string => "a string"
  | .identifier => "an identifier"
  | .number => "a number"

/-- How tokens depart from the grammar. What was found is named as `Token.describe` does. -/
inductive Flaw where
  | unexpected (found : String)
  | expected (what : Expectation) (found : String)
  | lateType (found : String)
  | latePseudoElement
  | missingArgument (category : Category) (name : String)
  | needlessArgument (category : Category) (name : String)
  | unexpectedArgument
  | unclosedParen
  | invalidFormula (text : String)
  | invalidNumber (text : String)
  deriving DecidableEq, Repr

def Flaw.message : Flaw → String
  | .unexpected found => "Unexpected " ++ found ++ "."
  | .expected what found => "Expected " ++ what.describe ++ " but found " ++ found ++ "."
  | .lateType found => "Type selector " ++ found ++ " must come first in a compound selector."
  | .latePseudoElement => "Pseudo-element must be the last item in a compound selector."
  | .missingArgument c name => "\"" ++ c.colons ++ name ++ "\" requires an argument."
  | .needlessArgument c name => "\"" ++ c.colons ++ name ++ "\" does not take an argument."
  | .unexpectedArgument => "Unexpected argument."
  | .unclosedParen => "Unclosed \"(\"."
  | .invalidFormula text => "Invalid an+b expression \"" ++ text ++ "\"."
  | .invalidNumber text => "Invalid number \"" ++ text ++ "\"."

/-- Faults of the parser itself and not of the text: no text meets them. -/
inductive Defect where
  | emptyName (e : EmptyName)
  | slice (start stop : Nat)
  | depth
  deriving DecidableEq, Repr

inductive ParseError where
  | lex (e : LexError)
  | malformed (flaw : Flaw) (position : Nat)
  | unknown (feature : Feature)
  | defect (d : Defect)
  deriving DecidableEq, Repr

end CssSelector
