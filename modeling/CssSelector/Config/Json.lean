import CssSelector.Config.Basic
import CssSelector.Json.Reader

/-!
Configurations as JSON. Every field may be left out, which gives it its default; at every level
unknown fields, repeated ones and null are errors.
-/

set_option autoImplicit false

namespace CssSelector

open Json

def Policy.ofJson? : Json → Option Policy := choice? ofName?

def AttributeOperator.ofJson? : Json → Option AttributeOperator := choice? ofSymbol?

def Combinator.ofName? (name : String) : Option Combinator := all.find? (·.name = name)

def Combinator.ofJson? : Json → Option Combinator := choice? ofName?

def strings? : Json → Option (List String) := list? string?

def Definitions.ofJson? (j : Json) : Option Definitions := do
  let ms ← members? (ArgumentGrammar.all.map (·.name)) j
  return {
    noArgument := ← field strings? "NoArgument" [] ms
    selector := ← field strings? "Selector" [] ms
    formula := ← field strings? "Formula" [] ms
    formulaOfSelector := ← field strings? "FormulaOfSelector" [] ms
    string := ← field strings? "String" [] ms
    identifier := ← field strings? "Identifier" [] ms
    number := ← field strings? "Number" [] ms }

def PseudoSwitches.ofJson? (j : Json) : Option PseudoSwitches := do
  let ms ← members? ["unknown", "definitions"] j
  return {
    unknown := ← field Policy.ofJson? "unknown" .accept ms
    definitions := ← field Definitions.ofJson? "definitions" {} ms }

def AttributeSwitches.ofJson? (j : Json) : Option AttributeSwitches := do
  let ms ← members? ["operators", "caseSensitivityModifiers", "unknown"] j
  let default : AttributeSwitches := {}
  return {
    operators := ← field (list? AttributeOperator.ofJson?) "operators" default.operators ms
    modifiers := ← field strings? "caseSensitivityModifiers" default.modifiers ms
    unknown := ← field Policy.ofJson? "unknown" .accept ms }

def CombinatorSwitches.ofJson? (j : Json) : Option CombinatorSwitches := do
  let ms ← members? ["allowed", "unknown"] j
  let default : CombinatorSwitches := {}
  return {
    allowed := ← field (list? Combinator.ofJson?) "allowed" default.allowed ms
    unknown := ← field Policy.ofJson? "unknown" .accept ms }

def Switches.ofJson? (j : Json) : Option Switches := do
  let ms ← members? ["pseudoClasses", "pseudoElements", "attributes", "combinators"] j
  return {
    pseudoClasses := ← field PseudoSwitches.ofJson? "pseudoClasses" {} ms
    pseudoElements := ← field PseudoSwitches.ofJson? "pseudoElements" {} ms
    attributes := ← field AttributeSwitches.ofJson? "attributes" {} ms
    combinators := ← field CombinatorSwitches.ofJson? "combinators" {} ms }

def Config.ofJson? (j : Json) : Option Config := do
  let ms ← members? ["modules", "syntax"] j
  return {
    modules := ← field strings? "modules" [] ms
    switches := ← field Switches.ofJson? "syntax" {} ms }

def Config.ofText (text : String) : Except ConfigError Config :=
  match (Json.ofText? text).bind ofJson? with
  | some c => .ok c
  | none => .error .invalidJson

/-! Writing a configuration leaves no field out. -/

def ofStrings (ss : List String) : Json := .array (ss.map .string)

def Policy.toJson (p : Policy) : Json := .string p.name

def Definitions.toJson (d : Definitions) : Json :=
  .object (ArgumentGrammar.all.map fun g => (g.name, ofStrings (d.names g)))

def PseudoSwitches.toJson (s : PseudoSwitches) : Json :=
  .object [("unknown", s.unknown.toJson), ("definitions", s.definitions.toJson)]

def AttributeSwitches.toJson (s : AttributeSwitches) : Json :=
  .object [("operators", ofStrings (s.operators.map (·.symbol))),
    ("caseSensitivityModifiers", ofStrings s.modifiers), ("unknown", s.unknown.toJson)]

def CombinatorSwitches.toJson (s : CombinatorSwitches) : Json :=
  .object [("allowed", ofStrings (s.allowed.map (·.name))), ("unknown", s.unknown.toJson)]

def Switches.toJson (s : Switches) : Json :=
  .object [("pseudoClasses", s.pseudoClasses.toJson), ("pseudoElements", s.pseudoElements.toJson),
    ("attributes", s.attributes.toJson), ("combinators", s.combinators.toJson)]

def Config.toJson (c : Config) : Json :=
  .object [("modules", ofStrings c.modules), ("syntax", c.switches.toJson)]

end CssSelector
