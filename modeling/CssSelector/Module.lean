import CssSelector.NameMap
import CssSelector.Signature

/-!
Modules, named bundles of pseudo-classes and pseudo-elements, and registries of them.
-/

set_option autoImplicit false

namespace CssSelector

structure Definition where
  name : String
  signature : Signature
  deriving DecidableEq, Repr

namespace Definition

def noArgument (name : String) : Definition := ⟨name, .noArgument⟩

def required (name : String) (g : ArgumentGrammar) : Definition := ⟨name, .required g⟩

def optional (name : String) (g : ArgumentGrammar) : Definition := ⟨name, .optional g⟩

end Definition

structure Module where
  name : String
  pseudoClasses : List Definition
  pseudoElements : List Definition
  deriving DecidableEq, Repr

def Module.definitions (m : Module) : Category → List Definition
  | .pseudoClass => m.pseudoClasses
  | .pseudoElement => m.pseudoElements

structure Registry where
  modules : NameMap Module

namespace Registry

def empty : Registry := ⟨.empty⟩

/-- Adds a module, in place of the one of the same name if there is one. -/
def register (r : Registry) (m : Module) : Registry := ⟨r.modules.insert m.name m⟩

def find? (r : Registry) (name : String) : Option Module := r.modules.find? name

def names (r : Registry) : List String := r.modules.keys

def ofList (ms : List Module) : Registry := ms.foldl register empty

end Registry

/-!
The modules of the CSS specifications. Where a level of a specification extends the one before, its
module repeats what the earlier one defines. The two levels of selectors exclude each other: only
the later one knows the clause `of S` in `:nth-child()`.
-/

namespace Module

def plain (names : List String) : List Definition := names.map .noArgument

def cssPosition1 : Module := ⟨"css-position-1", plain ["static", "relative", "absolute"], []⟩

def cssPosition2 : Module :=
  ⟨"css-position-2", cssPosition1.pseudoClasses ++ plain ["fixed"], []⟩

def cssPosition3 : Module :=
  ⟨"css-position-3", cssPosition2.pseudoClasses ++ plain ["sticky"], []⟩

def cssPosition4 : Module :=
  ⟨"css-position-4", cssPosition3.pseudoClasses ++ plain ["initial"], []⟩

def cssScoping1 : Module :=
  ⟨"css-scoping-1", [.optional "host" .selector, .required "host-context" .selector],
    [.required "slotted" .selector]⟩

def cssShadowParts1 : Module := ⟨"css-shadow-parts-1", [], [.required "part" .identifier]⟩

def cssPseudo4 : Module :=
  ⟨"css-pseudo-4", [],
    plain ["first-line", "first-letter", "before", "after", "marker", "placeholder", "selection",
      "target-text", "spelling-error", "grammar-error", "backdrop", "file-selector-button"] ++
    [.required "highlight" .identifier]⟩

def selectors3 : Module :=
  ⟨"selectors-3",
    plain ["link", "visited", "hover", "active", "focus", "target"] ++
    [.required "lang" .identifier] ++
    plain ["enabled", "disabled", "checked", "root"] ++
    [.required "nth-child" .formula, .required "nth-last-child" .formula,
      .required "nth-of-type" .formula, .required "nth-last-of-type" .formula] ++
    plain ["first-child", "last-child", "first-of-type", "last-of-type", "only-child",
      "only-of-type", "empty"] ++
    [.required "not" .selector],
    plain ["first-line", "first-letter", "before", "after"]⟩

def selectors4 : Module :=
  ⟨"selectors-4",
    plain ["link", "visited", "any-link", "local-link", "hover", "active", "focus",
      "focus-visible", "focus-within", "target", "target-within", "scope"] ++
    [.optional "current" .selector] ++
    plain ["past", "future", "playing", "paused"] ++
    [.required "lang" .identifier, .required "dir" .identifier] ++
    plain ["enabled", "disabled", "read-only", "read-write", "placeholder-shown", "default",
      "checked", "indeterminate", "blank", "valid", "invalid", "in-range", "out-of-range",
      "required", "optional", "user-invalid", "root", "empty"] ++
    [.required "nth-child" .formulaOfSelector, .required "nth-last-child" .formulaOfSelector,
      .required "nth-of-type" .formula, .required "nth-last-of-type" .formula] ++
    plain ["first-child", "last-child", "first-of-type", "last-of-type", "only-child",
      "only-of-type"] ++
    [.required "not" .selector, .required "is" .selector, .required "where" .selector,
      .required "has" .selector],
    plain ["first-line", "first-letter", "before", "after"]⟩

end Module

def Registry.builtin : Registry :=
  .ofList [.cssPosition1, .cssPosition2, .cssPosition3, .cssPosition4, .cssScoping1,
    .cssShadowParts1, .cssPseudo4, .selectors3, .selectors4]

end CssSelector
