set_option autoImplicit false

namespace CssSelector

inductive Token.Kind where
  | ident
  | string
  | number
  | colon
  | doubleColon
  | leftParen
  | rightParen
  | combinator
  | whitespace
  | comma
  | dot
  | hash
  | asterisk
  | leftBracket
  | rightBracket
  | attributeOperator
  | delim
  | endOfInput
  deriving DecidableEq, Repr

def Token.Kind.name : Token.Kind → String
  | ident => "ident"
  | string => "string"
  | number => "number"
  | colon => "colon"
  | doubleColon => "double-colon"
  | leftParen => "left-paren"
  | rightParen => "right-paren"
  | combinator => "combinator"
  | whitespace => "whitespace"
  | comma => "comma"
  | dot => "dot"
  | hash => "hash"
  | asterisk => "asterisk"
  | leftBracket => "left-bracket"
  | rightBracket => "right-bracket"
  | attributeOperator => "attribute-operator"
  | delim => "delim"
  | endOfInput => "end-of-input"

/-- Escapes are resolved in `text`, which leaves out quotes and the number sign of a hash. The
`position` is the byte offset of the first character. -/
structure Token where
  kind : Token.Kind
  text : String
  position : Nat
  deriving DecidableEq, Repr

def Token.isSpace (t : Token) : Bool := t.kind = .whitespace

def Token.describe (t : Token) : String :=
  match t.kind with
  | .endOfInput => "end of input"
  | .whitespace => "whitespace"
  | .string => "string \"" ++ t.text ++ "\""
  | .hash => "\"#" ++ t.text ++ "\""
  | _ => "\"" ++ t.text ++ "\""

end CssSelector
