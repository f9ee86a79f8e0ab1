/-!
Pseudo-classes and pseudo-elements as names: which of the two kinds a name belongs to, what may
stand between its parentheses, and the signature that says which of these uses are legal.
-/

set_option autoImplicit false

namespace CssSelector

inductive Category where
  | pseudoClass
  | pseudoElement
  deriving DecidableEq, Repr

def Category.all : List Category := [.pseudoClass, .pseudoElement]

def Category.name : Category → String
  | .pseudoClass => "pseudo-class"
  | .pseudoElement => "pseudo-element"

def Category.colons : Category → String
  | .pseudoClass => ":"
  | .pseudoElement => "::"

/-- The grammar of what stands between the parentheses after a name. -/
inductive ArgumentGrammar where
  | noArgument
  | selector
  | formula
  | formulaOfSelector
  | string
  | identifier
  | number
  deriving DecidableEq, Repr

def ArgumentGrammar.all : List ArgumentGrammar :=
  [.noArgument, .selector, .formula, .formulaOfSelector, .string, .identifier, .number]

def ArgumentGrammar.name : ArgumentGrammar → String
  | .noArgument => "NoArgument"
  | .selector => "Selector"
  | .formula => "Formula"
  | .formulaOfSelector => "FormulaOfSelector"
  | .string => "String"
  | .identifier => "Identifier"
  | .number => "Number"

def ArgumentGrammar.ofName? (name : String) : Option ArgumentGrammar := all.find? (·.name = name)

/-- A name may stand `bare`, and may take one kind of argument. -/
structure Signature where
  bare : Bool
  argument : Option ArgumentGrammar
  deriving DecidableEq, Repr

namespace Signature

def noArgument : Signature := ⟨true, none⟩

def required (g : ArgumentGrammar) : Signature := ⟨false, some g⟩

def optional (g : ArgumentGrammar) : Signature := ⟨true, some g⟩

/-- Allows one more grammar. Two different grammars of an argument are an error that names both. -/
def allow (s : Signature) (g : ArgumentGrammar) :
    Except (ArgumentGrammar × ArgumentGrammar) Signature :=
  if g = .noArgument then .ok { s with bare := true }
  else match s.argument with
    | none => .ok { s with argument := some g }
    | some h => if h = g then .ok s else .error (h, g)

/-- The signature of a name listed under the given grammars; under none at all it stands bare. -/
def ofGrammars (gs : List ArgumentGrammar) :
    Except (ArgumentGrammar × ArgumentGrammar) Signature := do
  let s ← gs.foldlM allow ⟨false, none⟩
  return { s with bare := s.bare || s.argument.isNone }

def grammars (s : Signature) : List ArgumentGrammar :=
  (if s.bare then [.noArgument] else []) ++ s.argument.toList

end Signature
end CssSelector
