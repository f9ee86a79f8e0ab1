import CssSelector.Json.Basic
import CssSelector.Text.Basic
import CssSelector.Token.Scan

/-!
Reading JSON text as RFC 8259 defines it, with nothing allowed beyond it. Repeated keys are no fault
of the text; a lone half of a surrogate pair is one. Each reader returns what it read and the text
that is left.
-/

set_option autoImplicit false

namespace CssSelector.Json

open Text

def isSpace (c : Char) : Bool := c = ' ' || c = '\t' || c = '\n' || c = '\r'

def unit? (a b c d : Char) : Option Nat :=
  if [a, b, c, d].all Scan.isHexDigit then some (Scan.hexValue [a, b, c, d]) else none

/-- The character of a single code unit, unless that is a half of a pair. -/
def charOfUnit? (n : Nat) : Option Char :=
  if n < 0xD800 ∨ 0xE000 ≤ n then some (Char.ofNat n) else none

/-- Characters beyond the first 65536 are a high half and a low half. -/
def charOfPair? (high low : Nat) : Option Char :=
  if 0xD800 ≤ high ∧ high < 0xDC00 ∧ 0xDC00 ≤ low ∧ low < 0xE000 then
    some (Char.ofNat (0x10000 + (high - 0xD800) * 0x400 + (low - 0xDC00)))
  else none

def escaped? : Char → Option Char
  | '"' => some '"'
  | '\\' => some '\\'
  | '/' => some '/'
  | 'b' => some '\x08'
  | 'f' => some '\x0c'
  | 'n' => some '\n'
  | 'r' => some '\r'
  | 't' => some '\t'
  | _ => none

def push? (c : Option Char) (s : Option (List Char × List Char)) : Option (List Char × List Char) := do
  let (cs, rest) ← s
  return ((← c) :: cs, rest)

def chars? : List Char → Option (List Char × List Char)
  | [] => none
  | '"' :: cs => some ([], cs)
  | '\\' :: 'u' :: a :: b :: c :: d :: cs =>
    match (unit? a b c d).bind charOfUnit? with
    | some x => push? (some x) (chars? cs)
    | none =>
      match cs with
      | '\\' :: 'u' :: e :: f :: g :: h :: cs =>
        push? (do charOfPair? (← unit? a b c d) (← unit? e f g h)) (chars? cs)
      | _ => none
  | '\\' :: e :: cs => push? (escaped? e) (chars? cs)
  | c :: cs => push? (if c.toNat < 0x20 ∨ c = '\\' then none else some c) (chars? cs)

def exponent? : List Char → Option Int
  | '-' :: ds => (natural? ds).map fun n => -n
  | '+' :: ds => (natural? ds).map fun n => n
  | ds => (natural? ds).map fun n => n

/-- Digits without a zero before other digits. -/
def startsInteger : List Char → Bool
  | '0' :: d :: _ => !d.isDigit
  | c :: _ => c.isDigit
  | [] => false

def isExponentMark (c : Char) : Bool := c = 'e' || c = 'E'

def unsigned? (cs : List Char) : Option (Nat × Int) :=
  if startsInteger cs then do
    let (n, places) ← decimal? (cs.takeWhile fun c => !isExponentMark c)
    match cs.dropWhile fun c => !isExponentMark c with
    | [] => return (n, -places)
    | _ :: e => return (n, (← exponent? e) - places)
  else none

def number? : List Char → Option Json
  | '-' :: cs => (unsigned? cs).map fun (n, e) => .number (-n) e
  | cs => (unsigned? cs).map fun (n, e) => .number n e

def isScalarChar (c : Char) : Bool := c.isAlphanum || c = '-' || c = '+' || c = '.'

def scalar? (spelling : List Char) : Option Json :=
  if spelling = ['n', 'u', 'l', 'l'] then some .null
  else if spelling = ['t', 'r', 'u', 'e'] then some (.bool true)
  else if spelling = ['f', 'a', 'l', 's', 'e'] then some (.bool false)
  else number? spelling

/-! Values hold values. Every bracket and every element uses up a little fuel, and there is enough of
it where it is more than twice the number of characters. -/

mutual

def value? (fuel : Nat) (cs : List Char) : Option (Json × List Char) :=
  match fuel with
  | 0 => none
  | fuel + 1 =>
    match cs.dropWhile isSpace with
    | '"' :: cs => (chars? cs).map fun (s, rest) => (.string (String.ofList s), rest)
    | '[' :: cs =>
      match cs.dropWhile isSpace with
      | ']' :: rest => some (.array [], rest)
      | cs => (elements? fuel cs).map fun (vs, rest) => (.array vs, rest)
    | '\x7b' :: cs =>
      match cs.dropWhile isSpace with
      | '\x7d' :: rest => some (.object [], rest)
      | cs => (memberList? fuel cs).map fun (ms, rest) => (.object ms, rest)
    | cs => (scalar? (cs.takeWhile isScalarChar)).map (·, cs.dropWhile isScalarChar)

def elements? (fuel : Nat) (cs : List Char) : Option (List Json × List Char) :=
  match fuel with
  | 0 => none
  | fuel + 1 => do
    let (v, cs) ← value? fuel cs
    match cs.dropWhile isSpace with
    | ',' :: cs =>
      let (vs, rest) ← elements? fuel cs
      return (v :: vs, rest)
    | ']' :: rest => return ([v], rest)
    | _ => none

def memberList? (fuel : Nat) (cs : List Char) : Option (List (String × Json) × List Char) :=
  match fuel with
  | 0 => none
  | fuel + 1 => do
    let '"' :: cs := cs.dropWhile isSpace | none
    let (key, cs) ← chars? cs
    let ':' :: cs := cs.dropWhile isSpace | none
    let (v, cs) ← value? fuel cs
    match cs.dropWhile isSpace with
    | ',' :: cs =>
      let (ms, rest) ← memberList? fuel cs
      return ((String.ofList key, v) :: ms, rest)
    | '\x7d' :: rest => return ([(String.ofList key, v)], rest)
    | _ => none

end

def ofText? (text : String) : Option Json := do
  let (j, rest) ← value? (2 * text.length + 1) text.toList
  if rest.all isSpace then return j else none

end CssSelector.Json
