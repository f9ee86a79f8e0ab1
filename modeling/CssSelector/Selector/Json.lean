import CssSelector.Json.Basic
import CssSelector.Selector.Basic

set_option autoImplicit false

namespace CssSelector

def Attribute.toMembers (a : Attribute) : List (String × Json) :=
  let optional key (value : Option String) := value.toList.map fun v => (key, Json.string v)
  ("name", .string a.name) :: (optional "operator" (a.operator.map (·.symbol)) ++
    optional "value" a.value ++ optional "caseSensitivity" a.modifier)

def Category.typeName : Category → String
  | .pseudoClass => "PseudoClass"
  | .pseudoElement => "PseudoElement"

def Formula.toMembers (f : Formula) : List (String × Json) := [("a", .int f.a), ("b", .int f.b)]

mutual

def Selector.toJson : Selector → Json
  | ⟨rs⟩ => .object [("rules", .array (rulesToJson rs))]

def rulesToJson : List Rule → List Json
  | [] => []
  | r :: rs => r.toJson :: rulesToJson rs

def Rule.toJson : Rule → Json
  | ⟨is⟩ => .object [("items", .array (itemsToJson is))]

def itemsToJson : List Item → List Json
  | [] => []
  | i :: is => i.toJson :: itemsToJson is

def Item.toJson : Item → Json
  | .tagName n => .object [("type", .string "TagName"), ("name", .string n)]
  | .universal => .object [("type", .string "Universal")]
  | .className n => .object [("type", .string "ClassName"), ("name", .string n)]
  | .idName n => .object [("type", .string "IdName"), ("name", .string n)]
  | .attribute a => .object (("type", .string "Attribute") :: a.toMembers)
  | .pseudo c n none => .object [("type", .string c.typeName), ("name", .string n)]
  | .pseudo c n (some x) =>
    .object [("type", .string c.typeName), ("name", .string n), ("argument", x.toJson)]
  | .combinator k => .object [("type", .string "Combinator"), ("kind", .string k.name)]

def Argument.toJson : Argument → Json
  | .selector s => .object [("type", .string "Selector"), ("value", s.toJson)]
  | .string t => .object [("type", .string "String"), ("value", .string t)]
  | .number x => .object [("type", .string "Number"), ("value", .string x.hex)]
  | .identifier n => .object [("type", .string "Identifier"), ("value", .string n)]
  | .formula f => .object [("type", .string "Formula"), ("value", .object f.toMembers)]
  | .formulaOfSelector f none =>
    .object [("type", .string "FormulaOfSelector"), ("value", .object f.toMembers)]
  | .formulaOfSelector f (some s) =>
    .object [("type", .string "FormulaOfSelector"),
      ("value", .object (f.toMembers ++ [("selector", s.toJson)]))]

end

end CssSelector
