import CssSelector.Config.Json
import CssSelector.Proofs.Json.Abridged
import CssSelector.Proofs.Json.Written

/-!
A configuration is read from every text of its JSON, with the members of each object in any order and
any fields left out that are as in the default configuration.
-/

set_option autoImplicit false

namespace CssSelector

open Json

theorem Policy.ofJson?_toJson (p : Policy) : ofJson? p.toJson = some p := by
  cases p <;> decide +kernel

theorem AttributeOperator.ofJson?_symbol (o : AttributeOperator) :
    ofJson? (.string o.symbol) = some o := by
  cases o <;> decide +kernel

theorem Combinator.ofJson?_name (c : Combinator) : ofJson? (.string c.name) = some c := by
  cases c <;> decide +kernel

theorem list?_ofStrings {α : Type} {read : Json → Option α} {name : α → String}
    (h : ∀ x, read (.string (name x)) = some x) (xs : List α) :
    list? read (ofStrings (xs.map name)) = some xs := by
  rw [ofStrings, list?, List.map_map]
  induction xs with
  | nil => rfl
  | cons x xs ih => rw [List.map_cons, List.mapM_cons, Function.comp_apply, h, ih]; rfl

theorem strings?_ofStrings (ss : List String) : strings? (ofStrings ss) = some ss := by
  have hid : ∀ s, string? (.string (id s)) = some s := fun _ => rfl
  rw [← List.map_id ss, strings?, list?_ofStrings hid, List.map_id]

/-! Each record is read field by field. -/

theorem Policy.roundTrips (default : Policy) : RoundTrips ofJson? toJson default :=
  roundTrips_of_plain ofJson?_toJson fun _ _ => Json.noConfusion

theorem AttributeOperator.roundTrips_list (default : List AttributeOperator) :
    RoundTrips (list? ofJson?) (fun os => ofStrings (os.map (·.symbol))) default :=
  roundTrips_of_plain (list?_ofStrings ofJson?_symbol) fun _ _ => Json.noConfusion

theorem Combinator.roundTrips_list (default : List Combinator) :
    RoundTrips (list? ofJson?) (fun cs => ofStrings (cs.map (·.name))) default :=
  roundTrips_of_plain (list?_ofStrings ofJson?_name) fun _ _ => Json.noConfusion

theorem roundTrips_strings (default : List String) : RoundTrips strings? ofStrings default :=
  roundTrips_of_plain strings?_ofStrings fun _ _ => Json.noConfusion

theorem Definitions.lookup_toJson (d : Definitions) (g : ArgumentGrammar) :
    (ArgumentGrammar.all.map fun g => (g.name, ofStrings (d.names g))).lookup g.name =
      some (ofStrings (d.names g)) := by
  cases g <;> rfl

theorem Definitions.roundTrips : RoundTrips ofJson? toJson {} := by
  intro d j h
  obtain ⟨os, hos, hfield⟩ :=
    h.exists_members? (ArgumentGrammar.all.map (·.name)) List.map_map (by decide)
  have hnames (key : String) (g : ArgumentGrammar) (hg : g.name = key) :
      field strings? key [] os = some (d.names g) := by
    have hdefault : ({} : Definitions).names g = [] := by cases g <;> rfl
    rw [← hg]
    exact hfield g.name (roundTrips_strings []) (d.lookup_toJson g)
      (by rw [lookup_toJson, hdefault])
  rw [ofJson?, hos]
  simp only [Option.bind_eq_bind, Option.bind_some, hnames "NoArgument" .noArgument rfl,
    hnames "Selector" .selector rfl, hnames "Formula" .formula rfl,
    hnames "FormulaOfSelector" .formulaOfSelector rfl, hnames "String" .string rfl,
    hnames "Identifier" .identifier rfl, hnames "Number" .number rfl]
  rfl

theorem PseudoSwitches.roundTrips : RoundTrips ofJson? toJson {} := by
  intro s j h
  obtain ⟨os, hos, hfield⟩ := h.exists_members? ["unknown", "definitions"] rfl (by decide)
  have hunknown := hfield "unknown" (Policy.roundTrips .accept) rfl rfl
  have hdefinitions := hfield "definitions" Definitions.roundTrips rfl rfl
  rw [ofJson?, hos]
  simp only [Option.bind_eq_bind, Option.bind_some, hunknown, hdefinitions]
  rfl

theorem AttributeSwitches.roundTrips : RoundTrips ofJson? toJson {} := by
  intro s j h
  obtain ⟨os, hos, hfield⟩ :=
    h.exists_members? ["operators", "caseSensitivityModifiers", "unknown"] rfl (by decide)
  have hoperators := hfield "operators" (AttributeOperator.roundTrips_list _) rfl rfl
  have hmodifiers := hfield "caseSensitivityModifiers" (roundTrips_strings _) rfl rfl
  have hunknown := hfield "unknown" (Policy.roundTrips .accept) rfl rfl
  rw [ofJson?, hos]
  simp only [Option.bind_eq_bind, Option.bind_some, hoperators, hmodifiers, hunknown]
  rfl

theorem CombinatorSwitches.roundTrips : RoundTrips ofJson? toJson {} := by
  intro s j h
  obtain ⟨os, hos, hfield⟩ := h.exists_members? ["allowed", "unknown"] rfl (by decide)
  have hallowed := hfield "allowed" (Combinator.roundTrips_list _) rfl rfl
  have hunknown := hfield "unknown" (Policy.roundTrips .accept) rfl rfl
  rw [ofJson?, hos]
  simp only [Option.bind_eq_bind, Option.bind_some, hallowed, hunknown]
  rfl

theorem Switches.roundTrips : RoundTrips ofJson? toJson {} := by
  intro s j h
  obtain ⟨os, hos, hfield⟩ :=
    h.exists_members? ["pseudoClasses", "pseudoElements", "attributes", "combinators"] rfl (by decide)
  have hclasses := hfield "pseudoClasses" PseudoSwitches.roundTrips rfl rfl
  have helements := hfield "pseudoElements" PseudoSwitches.roundTrips rfl rfl
  have hattributes := hfield "attributes" AttributeSwitches.roundTrips rfl rfl
  have hcombinators := hfield "combinators" CombinatorSwitches.roundTrips rfl rfl
  rw [ofJson?, hos]
  simp only [Option.bind_eq_bind, Option.bind_some, hclasses, helements, hattributes, hcombinators]
  rfl

theorem Config.roundTrips : RoundTrips ofJson? toJson {} := by
  intro c j h
  obtain ⟨os, hos, hfield⟩ := h.exists_members? ["modules", "syntax"] rfl (by decide)
  have hmodules := hfield "modules" (roundTrips_strings []) rfl rfl
  have hswitches := hfield "syntax" Switches.roundTrips rfl rfl
  rw [ofJson?, hos]
  simp only [Option.bind_eq_bind, Option.bind_some, hmodules, hswitches]
  rfl

theorem Config.ofText_of_spells {c : Config} {j : Json} {text : String}
    (ht : Spells (.element j) text.toList) (hj : ofJson? j = some c) : ofText text = .ok c := by
  rw [ofText, ofText?_of_spells ht, Option.bind_some, hj]

theorem Config.ofText_of_abridges {c : Config} {j : Json} {text : String}
    (hj : Abridges c.toJson (toJson {}) j) (ht : Spells (.element j) text.toList) :
    ofText text = .ok c :=
  ofText_of_spells ht (Config.roundTrips c j hj)

theorem Config.ofText_of_abridges_reordered :
    ofText ("\x7b \"syntax\": \x7b\"attributes\":\x7b\"caseSensitivityModifiers\":" ++
      "[\"\\ud83D\\uDE00\"]\x7d\x7d,\n\"\\u006Dodules\":[\"css\"]\x7d") =
        .ok { modules := ["css"], switches := { attributes := { modifiers := ["😀"] } } } := by
  have hspace : Blank [' '] := List.forall_mem_singleton.2 rfl
  have hbreak : Blank ['\n'] := List.forall_mem_singleton.2 rfl
  have hface : SpellsChars ['😀'] _ :=
    .cons (.pair (by decide) ⟨rfl, 0, (by decide : List.map Char.toLower ['d', '8', '3', 'D'] = _)⟩
      ⟨rfl, 0, (by decide : List.map Char.toLower ['D', 'E', '0', '0'] = _)⟩) .nil
  have hkey : SpellsChars ('m' :: "odules".toList) _ :=
    .cons (.unit ⟨rfl, 2, (by decide : List.map Char.toLower ['0', '0', '6', 'D'] = _)⟩)
      (spellsChars_flatMap _)
  have hmodifiers : Spells (.member ("caseSensitivityModifiers", ofStrings ["😀"])) _ :=
    .member_of_value (.array (.lastElement (.element_of_value (.string hface))))
  have hattributes : Spells (.member ("attributes", _)) _ :=
    .member_of_value (.object (.lastMember hmodifiers))
  have hsyntax : Spells (.member ("syntax", _)) _ :=
    .member hspace (spellsChars_flatMap "syntax".toList) blank_nil
      (.element hspace (.object (.lastMember hattributes)) blank_nil)
  have hcss : Spells (.value (ofStrings ["css"])) _ :=
    .array (.lastElement (.element_of_value (.string (spellsChars_flatMap "css".toList))))
  have hmodules : Spells (.member ("modules", _)) _ :=
    .member hbreak hkey blank_nil hcss.element_of_value
  have ht := (Spells.object (.members hsyntax (.lastMember hmodules))).element_of_value
  refine ofText_of_abridges ?_ (Eq.mp (congrArg (Spells _) (by decide)) ht)
  refine .object (.keep .same (.keep ?_ .nil)) (.swap ..)
  refine .object (.drop (.drop (.keep ?_ (.drop .nil)))) (.refl _)
  exact .object (.drop (.keep .same (.drop .nil))) (.refl _)

/-! What is written of a configuration is one of the texts that it is read from. -/

theorem plain_ofStrings (ss : List String) : Plain (ofStrings ss) := by
  refine .array fun v hv => ?_
  obtain ⟨s, _, rfl⟩ := List.mem_map.1 hv
  exact .string s

theorem Definitions.plain_toJson (d : Definitions) : Plain d.toJson := by
  refine .object fun m hm => ?_
  obtain ⟨g, _, rfl⟩ := List.mem_map.1 hm
  exact plain_ofStrings (d.names g)

theorem PseudoSwitches.plain_toJson (s : PseudoSwitches) : Plain s.toJson := by
  refine .object ?_
  simp only [List.forall_mem_cons]
  exact ⟨.string _, s.definitions.plain_toJson, nofun⟩

theorem AttributeSwitches.plain_toJson (s : AttributeSwitches) : Plain s.toJson := by
  refine .object ?_
  simp only [List.forall_mem_cons]
  exact ⟨plain_ofStrings _, plain_ofStrings _, .string _, nofun⟩

theorem CombinatorSwitches.plain_toJson (s : CombinatorSwitches) : Plain s.toJson := by
  refine .object ?_
  simp only [List.forall_mem_cons]
  exact ⟨plain_ofStrings _, .string _, nofun⟩

theorem Switches.plain_toJson (s : Switches) : Plain s.toJson := by
  refine .object ?_
  simp only [List.forall_mem_cons]
  exact ⟨s.pseudoClasses.plain_toJson, s.pseudoElements.plain_toJson, s.attributes.plain_toJson,
    s.combinators.plain_toJson, nofun⟩

theorem Config.plain_toJson (c : Config) : Plain c.toJson := by
  refine .object ?_
  simp only [List.forall_mem_cons]
  exact ⟨plain_ofStrings _, c.switches.plain_toJson, nofun⟩

theorem Config.ofText_write (c : Config) : ofText (write c.toJson) = .ok c :=
  ofText_of_spells (spells_write c.plain_toJson) (Config.roundTrips.read_write c)

end CssSelector
