import CssSelector.Config.Basic
import CssSelector.NameMap
import CssSelector.Text.Basic

/-!
Dialects: which pseudo-classes and pseudo-elements are known, with their signatures, and the
switches of the configuration. Names are kept, and looked up, in lower case.
-/

set_option autoImplicit false

namespace CssSelector

open Text

structure Dialect where
  pseudoClasses : NameMap Signature
  pseudoElements : NameMap Signature
  pseudoClassPolicy : Policy
  pseudoElementPolicy : Policy
  attributes : AttributeSwitches
  combinators : CombinatorSwitches

namespace Dialect

def known (d : Dialect) : Category → NameMap Signature
  | .pseudoClass => d.pseudoClasses
  | .pseudoElement => d.pseudoElements

def signature? (d : Dialect) (category : Category) (name : String) : Option Signature :=
  (d.known category).find? (fold name)

def recognises (d : Dialect) : Feature → Bool
  | .pseudo category name => (d.signature? category name).isSome
  | .operator op => d.attributes.operators.contains op
  | .modifier text => d.attributes.modifiers.any (sameLetters text)
  | .combinator k => d.combinators.allowed.contains k

def policyOn (d : Dialect) : Feature → Policy
  | .pseudo .pseudoClass _ => d.pseudoClassPolicy
  | .pseudo .pseudoElement _ => d.pseudoElementPolicy
  | .operator _ => d.attributes.unknown
  | .modifier _ => d.attributes.unknown
  | .combinator _ => d.combinators.unknown

/-- A known name is accepted whatever the policy. -/
def resolve (d : Dialect) (category : Category) (name : String) : Verdict :=
  match d.signature? category name with
  | some s => .known s
  | none => (d.policyOn (.pseudo category name)).verdict

end Dialect
end CssSelector
