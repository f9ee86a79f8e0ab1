import CssSelector.Signature

/-!
The constructs that a dialect may or may not recognise, what becomes of those that it does not, and
the warnings about them, with the memory of those that have been reported.
-/

set_option autoImplicit false

namespace CssSelector

/-! The symbols that relate two compounds, and those that relate an attribute to a value. -/

inductive Combinator where
  | descendant
  | child
  | nextSibling
  | subsequentSibling
  deriving DecidableEq, Repr

namespace Combinator

def all : List Combinator := [.descendant, .child, .nextSibling, .subsequentSibling]

def symbol : Combinator → String
  | .descendant => " "
  | .child => ">"
  | .nextSibling => "+"
  | .subsequentSibling => "~"

def name : Combinator → String
  | .descendant => "descendant"
  | .child => "child"
  | .nextSibling => "next-sibling"
  | .subsequentSibling => "subsequent-sibling"

def ofSymbol? (symbol : String) : Option Combinator := all.find? (·.symbol = symbol)

end Combinator

inductive AttributeOperator where
  | equals
  | includes
  | dashMatch
  | startsWith
  | endsWith
  | contains
  deriving DecidableEq, Repr

namespace AttributeOperator

def all : List AttributeOperator :=
  [.equals, .includes, .dashMatch, .startsWith, .endsWith, .contains]

def symbol : AttributeOperator → String
  | .equals => "="
  | .includes => "~="
  | .dashMatch => "|="
  | .startsWith => "^="
  | .endsWith => "$="
  | .contains => "*="

def ofSymbol? (symbol : String) : Option AttributeOperator := all.find? (·.symbol = symbol)

end AttributeOperator

/-! Features and policies. -/

inductive Feature where
  | pseudo (category : Category) (name : String)
  | operator (op : AttributeOperator)
  | modifier (text : String)
  | combinator (k : Combinator)
  deriving DecidableEq, Repr

def Feature.message : Feature → String
  | .pseudo .pseudoClass name => "Unknown pseudo-class: \"" ++ name ++ "\"."
  | .pseudo .pseudoElement name => "Unknown pseudo-element \"" ++ name ++ "\"."
  | .operator op => "Unknown attribute operator: \"" ++ op.symbol ++ "\"."
  | .modifier text => "Unknown attribute case sensitivity modifier: \"" ++ text ++ "\"."
  | .combinator k => "Unknown combinator: \"" ++ k.symbol ++ "\"."

inductive Policy where
  | reject
  | accept
  | warn
  deriving DecidableEq, Repr

def Policy.all : List Policy := [.reject, .accept, .warn]

def Policy.name : Policy → String
  | .reject => "reject"
  | .accept => "accept"
  | .warn => "warn"

def Policy.ofName? (name : String) : Option Policy := all.find? (·.name = name)

/-- A known name comes with its signature; what is unknown is refused, let pass unchecked, or let
pass with a warning. -/
inductive Verdict where
  | known (signature : Signature)
  | refused
  | passed
  | flagged
  deriving DecidableEq, Repr

def Policy.verdict : Policy → Verdict
  | .reject => .refused
  | .accept => .passed
  | .warn => .flagged

/-! Warnings. -/

/-- The `position` is a byte offset. -/
structure Warning where
  message : String
  position : Nat
  deriving DecidableEq, Repr

def atOffset (message : String) (position : Nat) : String :=
  message ++ " (at offset " ++ toString position ++ ")"

def Warning.describe (w : Warning) : String := atOffset w.message w.position

/-- The lines reported so far, the component in brackets before the message. -/
structure Reported where
  lines : List String
  deriving DecidableEq, Repr

namespace Reported

def empty : Reported := ⟨[]⟩

/-- Whether the message is new for the component, and the memory with it. -/
def note (r : Reported) (component message : String) : Bool × Reported :=
  let line := "[" ++ component ++ "] " ++ message
  if line ∈ r.lines then (false, r) else (true, ⟨line :: r.lines⟩)

def noteAll (r : Reported) (component : String) : List Warning → Nat × Reported
  | [] => (0, r)
  | w :: ws =>
    let (new, r) := r.note component w.describe
    let (count, r) := r.noteAll component ws
    (count + new.toNat, r)

end Reported

end CssSelector
