import CssSelector.Feature

/-!
Configurations: the modules to enable, names to define beside them, and switches that say which
symbols are recognised and what becomes of all that is not; and what can be wrong with one.
-/

set_option autoImplicit false

namespace CssSelector

/-- Names listed under each grammar. A name under `noArgument` and one other grammar may go without
its argument. -/
structure Definitions where
  noArgument : List String := []
  selector : List String := []
  formula : List String := []
  formulaOfSelector : List String := []
  string : List String := []
  identifier : List String := []
  number : List String := []
  deriving DecidableEq, Repr

namespace Definitions

def names (d : Definitions) : ArgumentGrammar → List String
  | .noArgument => d.noArgument
  | .selector => d.selector
  | .formula => d.formula
  | .formulaOfSelector => d.formulaOfSelector
  | .string => d.string
  | .identifier => d.identifier
  | .number => d.number

def add (d : Definitions) (name : String) : ArgumentGrammar → Definitions
  | .noArgument => { d with noArgument := d.noArgument ++ [name] }
  | .selector => { d with selector := d.selector ++ [name] }
  | .formula => { d with formula := d.formula ++ [name] }
  | .formulaOfSelector => { d with formulaOfSelector := d.formulaOfSelector ++ [name] }
  | .string => { d with string := d.string ++ [name] }
  | .identifier => { d with identifier := d.identifier ++ [name] }
  | .number => { d with number := d.number ++ [name] }

def entries (d : Definitions) : List (ArgumentGrammar × String) :=
  ArgumentGrammar.all.flatMap fun g => (d.names g).map (g, ·)

end Definitions

structure PseudoSwitches where
  unknown : Policy := .accept
  definitions : Definitions := {}
  deriving DecidableEq, Repr

/-- The policy is for operators and modifiers outside the two lists. -/
structure AttributeSwitches where
  operators : List AttributeOperator := AttributeOperator.all
  modifiers : List String := ["i", "s"]
  unknown : Policy := .accept
  deriving DecidableEq, Repr

structure CombinatorSwitches where
  allowed : List Combinator := Combinator.all
  unknown : Policy := .accept
  deriving DecidableEq, Repr

structure Switches where
  pseudoClasses : PseudoSwitches := {}
  pseudoElements : PseudoSwitches := {}
  attributes : AttributeSwitches := {}
  combinators : CombinatorSwitches := {}
  deriving DecidableEq, Repr

structure Config where
  modules : List String := []
  switches : Switches := {}
  deriving DecidableEq, Repr

namespace Switches

def pseudo (s : Switches) : Category → PseudoSwitches
  | .pseudoClass => s.pseudoClasses
  | .pseudoElement => s.pseudoElements

def mapPseudo (f : PseudoSwitches → PseudoSwitches) (s : Switches) : Category → Switches
  | .pseudoClass => { s with pseudoClasses := f s.pseudoClasses }
  | .pseudoElement => { s with pseudoElements := f s.pseudoElements }

end Switches

/-! Building a configuration from the default one. -/

namespace Config

def enable (c : Config) (modules : List String) : Config :=
  { c with modules := c.modules ++ modules }

def withPseudoPolicy (c : Config) (category : Category) (policy : Policy) : Config :=
  { c with switches := c.switches.mapPseudo (fun s => { s with unknown := policy }) category }

def define (c : Config) (category : Category) (name : String) (g : ArgumentGrammar) : Config :=
  let add (s : PseudoSwitches) := { s with definitions := s.definitions.add name g }
  { c with switches := c.switches.mapPseudo add category }

def mapAttributes (f : AttributeSwitches → AttributeSwitches) (c : Config) : Config :=
  { c with switches.attributes := f c.switches.attributes }

def mapCombinators (f : CombinatorSwitches → CombinatorSwitches) (c : Config) : Config :=
  { c with switches.combinators := f c.switches.combinators }

def withAttributePolicy (c : Config) (policy : Policy) : Config :=
  c.mapAttributes fun s => { s with unknown := policy }

def withCombinatorPolicy (c : Config) (policy : Policy) : Config :=
  c.mapCombinators fun s => { s with unknown := policy }

def withOperators (c : Config) (operators : List AttributeOperator) : Config :=
  c.mapAttributes fun s => { s with operators }

def withCombinators (c : Config) (allowed : List Combinator) : Config :=
  c.mapCombinators fun s => { s with allowed }

end Config

/-! Errors. -/

/-- A source is the name of a module, or the word for the definitions of the configuration itself.
The text of a configuration that is no JSON, or not of its shape, is not looked into further. -/
inductive ConfigError where
  | unknownModule (name : String)
  | conflictingGrammar (category : Category) (name first second : String)
  | categoryCollision (name : String)
  | ambiguousDefinition (category : Category) (name : String) (first second : ArgumentGrammar)
  | invalidJson
  deriving DecidableEq, Repr

def ConfigError.message : ConfigError → String
  | .unknownModule name => "Unknown module: \"" ++ name ++ "\"."
  | .conflictingGrammar c name first second =>
    "Conflicting argument grammar for " ++ c.name ++ " \"" ++ name ++ "\": \"" ++ first ++
      "\" and \"" ++ second ++ "\" disagree."
  | .categoryCollision name =>
    "\"" ++ name ++ "\" is defined both as a pseudo-class and as a pseudo-element."
  | .ambiguousDefinition c name first second =>
    c.name ++ " \"" ++ name ++ "\" cannot take both a " ++ first.name ++ " and a " ++
      second.name ++ " argument."
  | .invalidJson => "Invalid configuration."

end CssSelector
