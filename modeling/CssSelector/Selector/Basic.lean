import CssSelector.Binary64
import CssSelector.Formula
import CssSelector.Feature

/-!
The syntax tree of a selector: a list of rules, which are compounds of simple items joined by
combinator items. Pseudo-classes and pseudo-elements may hold selectors in turn.
-/

set_option autoImplicit false

namespace CssSelector

/-- Without an operator it tests for presence. -/
structure Attribute where
  name : String
  operator : Option AttributeOperator
  value : Option String
  modifier : Option String
  deriving DecidableEq, Repr

mutual

structure Selector where
  rules : List Rule
  deriving Repr

structure Rule where
  items : List Item
  deriving Repr

inductive Item where
  | tagName (name : String)
  | universal
  | className (name : String)
  | idName (name : String)
  | attribute (a : Attribute)
  | pseudo (category : Category) (name : String) (argument : Option Argument)
  | combinator (kind : Combinator)
  deriving Repr

/-- A string is quoted, or the text of an argument of an unknown name. -/
inductive Argument where
  | selector (s : Selector)
  | string (text : String)
  | number (x : Binary64)
  | identifier (name : String)
  | formula (f : Formula)
  | formulaOfSelector (f : Formula) (s : Option Selector)
  deriving Repr

end

/-! Equality of trees, in which numbers are compared as numbers. -/

mutual

def Selector.same : Selector → Selector → Bool
  | ⟨rs⟩, ⟨rs'⟩ => sameRules rs rs'

def sameRules : List Rule → List Rule → Bool
  | [], [] => true
  | r :: rs, r' :: rs' => r.same r' && sameRules rs rs'
  | _, _ => false

def Rule.same : Rule → Rule → Bool
  | ⟨is⟩, ⟨is'⟩ => sameItems is is'

def sameItems : List Item → List Item → Bool
  | [], [] => true
  | i :: is, i' :: is' => i.same i' && sameItems is is'
  | _, _ => false

def Item.same : Item → Item → Bool
  | .tagName n, .tagName n' => n = n'
  | .universal, .universal => true
  | .className n, .className n' => n = n'
  | .idName n, .idName n' => n = n'
  | .attribute a, .attribute a' => a = a'
  | .pseudo c n none, .pseudo c' n' none => c = c' && n = n'
  | .pseudo c n (some x), .pseudo c' n' (some x') => c = c' && n = n' && x.same x'
  | .combinator k, .combinator k' => k = k'
  | _, _ => false

def Argument.same : Argument → Argument → Bool
  | .selector s, .selector s' => s.same s'
  | .string t, .string t' => t = t'
  | .number x, .number x' => x.same x'
  | .identifier n, .identifier n' => n = n'
  | .formula f, .formula f' => f = f'
  | .formulaOfSelector f none, .formulaOfSelector f' none => f = f'
  | .formulaOfSelector f (some s), .formulaOfSelector f' (some s') => f = f' && s.same s'
  | _, _ => false

end

/-! Building the items of a tree one by one. No name may be empty. -/

inductive EmptyName where
  | tag
  | className
  | id
  | attribute
  | pseudo (category : Category)
  deriving DecidableEq, Repr

namespace EmptyName

def message (e : EmptyName) : String :=
  let what := match e with
    | .tag => "tag name"
    | .className => "class name"
    | .id => "id"
    | .attribute => "attribute name"
    | .pseudo c => c.name ++ " name"
  what ++ " must not be empty"

def check (e : EmptyName) (name : String) : Except EmptyName String :=
  if name = "" then .error e else .ok name

end EmptyName

namespace Item

def tag (name : String) : Except EmptyName Item :=
  (EmptyName.tag.check name).map .tagName

def ofClass (name : String) : Except EmptyName Item :=
  (EmptyName.className.check name).map .className

def ofId (name : String) : Except EmptyName Item :=
  (EmptyName.id.check name).map .idName

def presence (name : String) : Except EmptyName Item :=
  (EmptyName.attribute.check name).map fun name => .attribute ⟨name, none, none, none⟩

def comparison (name : String) (operator : AttributeOperator) (value : String)
    (modifier : Option String) : Except EmptyName Item :=
  (EmptyName.attribute.check name).map fun name =>
    .attribute ⟨name, some operator, some value, modifier⟩

def ofPseudo (category : Category) (name : String) (argument : Option Argument) :
    Except EmptyName Item :=
  ((EmptyName.pseudo category).check name).map (.pseudo category · argument)

end Item

end CssSelector
