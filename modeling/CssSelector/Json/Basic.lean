/-!
JSON values, and the two notions that records and enumerations are written in: the members that
stand for the fields of a record (`Json.members?`), and a choice among named values
(`Json.choice?`). Both forms of a record, the object and the array of its fields in order, give
the same members.
-/

set_option autoImplicit false

namespace CssSelector

/-- A number `digits * 10 ^ exponent` is kept exactly; members are kept in order, repeated keys
included. -/
inductive Json where
  | null
  | bool (value : Bool)
  | number (digits exponent : Int)
  | string (value : String)
  | array (values : List Json)
  | object (members : List (String × Json))
  deriving Repr

namespace Json

def int (z : Int) : Json := .number z 0

/-- The members of a record with the given keys. An unknown key, a repeated one, or more elements
than fields make it none. -/
def members? (keys : List String) : Json → Option (List (String × Json))
  | .object members =>
    let found := members.map (·.1)
    if found.Nodup ∧ ∀ key ∈ found, key ∈ keys then some members else none
  | .array values => if values.length ≤ keys.length then some (keys.zip values) else none
  | _ => none

def field {α : Type} (read : Json → Option α) (key : String) (default : α)
    (members : List (String × Json)) : Option α :=
  match members.lookup key with
  | none => some default
  | some value => read value

def string? : Json → Option String
  | .string s => some s
  | _ => none

def list? {α : Type} (read : Json → Option α) : Json → Option (List α)
  | .array values => values.mapM read
  | _ => none

/-- A named value is written as its name, or as an object that maps the name to null. -/
def choice? {α : Type} (ofName? : String → Option α) : Json → Option α
  | .string name => ofName? name
  | .object [(name, .null)] => ofName? name
  | _ => none

end Json
end CssSelector
