import CssSelector.Json.Basic

/-!
Writing JSON text: no white space, and no escapes but those that a string needs.
-/

set_option autoImplicit false

namespace CssSelector.Json

def writeChar (c : Char) : List Char :=
  if c = '"' ∨ c = '\\' then ['\\', c]
  else if c = '\n' then ['\\', 'n']
  else if c = '\r' then ['\\', 'r']
  else if c = '\t' then ['\\', 't']
  else if c.toNat < 0x20 then
    ['\\', 'u', '0', '0', (c.toNat / 16).digitChar, (c.toNat % 16).digitChar]
  else [c]

def putString (out s : String) : String :=
  out ++ "\"" ++ String.ofList (s.toList.flatMap writeChar) ++ "\""

/-! Values are put behind what has been written before them. -/

mutual

def put (out : String) : Json → String
  | .null => out ++ "null"
  | .bool true => out ++ "true"
  | .bool false => out ++ "false"
  | .number n e => if e = 0 then out ++ toString n else out ++ toString n ++ "e" ++ toString e
  | .string s => putString out s
  | .array vs => putElements (out ++ "[") vs ++ "]"
  | .object ms => putMembers (out ++ "\x7b") ms ++ "\x7d"

def putElements (out : String) : List Json → String
  | [] => out
  | [v] => put out v
  | v :: vs => putElements (put out v ++ ",") vs

def putMembers (out : String) : List (String × Json) → String
  | [] => out
  | [(key, v)] => put (putString out key ++ ":") v
  | (key, v) :: ms => putMembers (put (putString out key ++ ":") v ++ ",") ms

end

def write (j : Json) : String := put "" j

end CssSelector.Json
