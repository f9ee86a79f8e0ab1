import CssSelector.Dialect.Basic
import CssSelector.Module

/-!
Compiling a configuration. The dialect knows the union of what the enabled modules and the
configuration itself define; sources may repeat one another, but not disagree.
-/

set_option autoImplicit false

namespace CssSelector

open Text

def Config.source : String := "syntax"

def Registry.resolve (r : Registry) (name : String) : Except ConfigError Module :=
  match r.find? name with
  | some m => .ok m
  | none => .error (.unknownModule name)

/-- The names granted so far, with the source that granted each first. -/
structure Grants where
  pseudoClasses : NameMap (Signature × String)
  pseudoElements : NameMap (Signature × String)

namespace Grants

def empty : Grants := ⟨.empty, .empty⟩

def table (t : Grants) : Category → NameMap (Signature × String)
  | .pseudoClass => t.pseudoClasses
  | .pseudoElement => t.pseudoElements

def withTable (t : Grants) (m : NameMap (Signature × String)) : Category → Grants
  | .pseudoClass => { t with pseudoClasses := m }
  | .pseudoElement => { t with pseudoElements := m }

def grant (category : Category) (source : String) (t : Grants) (d : Definition) :
    Except ConfigError Grants :=
  let name := fold d.name
  match (t.table category).find? name with
  | none => .ok (t.withTable ((t.table category).insert name (d.signature, source)) category)
  | some (s, first) =>
    if s = d.signature then .ok t else .error (.conflictingGrammar category name first source)

def enable (r : Registry) (t : Grants) (name : String) : Except ConfigError Grants := do
  let m ← r.resolve name
  let t ← m.pseudoClasses.foldlM (grant .pseudoClass m.name) t
  m.pseudoElements.foldlM (grant .pseudoElement m.name) t

end Grants

/-- The grammars that each name, in lower case, is listed under. -/
def Definitions.grouped (d : Definitions) : NameMap (List ArgumentGrammar) :=
  d.entries.foldl (fun m (g, name) =>
    m.insert (fold name) ((m.find? (fold name)).getD [] ++ [g])) .empty

def Definitions.signatures (d : Definitions) (category : Category) :
    Except ConfigError (List Definition) :=
  d.grouped.entries.mapM fun (name, gs) =>
    match Signature.ofGrammars gs with
    | .ok s => .ok ⟨name, s⟩
    | .error (first, second) => .error (.ambiguousDefinition category name first second)

namespace Grants

def define (d : Definitions) (category : Category) (t : Grants) : Except ConfigError Grants := do
  (← d.signatures category).foldlM (grant category Config.source) t

/-- No name may be granted in both categories. -/
def checkDisjoint (t : Grants) : Except ConfigError Unit :=
  match t.pseudoClasses.keys.find? t.pseudoElements.contains with
  | some name => .error (.categoryCollision name)
  | none => .ok ()

end Grants

def Config.compile (c : Config) (r : Registry) : Except ConfigError Dialect := do
  let t ← c.modules.foldlM (Grants.enable r) .empty
  let t ← t.define c.switches.pseudoClasses.definitions .pseudoClass
  let t ← t.define c.switches.pseudoElements.definitions .pseudoElement
  t.checkDisjoint
  return {
    pseudoClasses := t.pseudoClasses.map (·.1)
    pseudoElements := t.pseudoElements.map (·.1)
    pseudoClassPolicy := c.switches.pseudoClasses.unknown
    pseudoElementPolicy := c.switches.pseudoElements.unknown
    attributes := c.switches.attributes
    combinators := c.switches.combinators }

end CssSelector
