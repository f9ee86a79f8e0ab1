import CssSelector.Proofs.Config.Json

/-!
Configurations are read strictly. At any depth a member that is no field, a member more than once, null
and an element too many are errors, and a record may be written as the array of its fields instead
(`Config.ofText_strict`).
-/

set_option autoImplicit false

namespace CssSelector

open Json

namespace Json
variable {keys : List String} {ms os : List (String × Json)} {vs : List Json}

theorem members?_object : members? keys (.object ms) = some os ↔
    ((ms.map (·.1)).Nodup ∧ ∀ key ∈ ms.map (·.1), key ∈ keys) ∧ ms = os := by
  simp [members?]

theorem members?_array :
    members? keys (.array vs) = some os ↔ vs.length ≤ keys.length ∧ keys.zip vs = os := by
  simp [members?]

theorem map_fst_zip_eq_take {α β : Type} (xs : List α) (ys : List β) :
    (xs.zip ys).map (·.1) = xs.take ys.length := by
  induction xs generalizing ys with
  | nil => simp
  | cons x xs ih => cases ys <;> simp [ih]

theorem exists_mem_zip_of_forall₂ {α β γ : Type} {R : α → β → Prop} (f : α → γ) {xs : List α}
    {ys : List β} (h : List.Forall₂ R xs ys) {x : α} (hx : x ∈ xs) :
    ∃ y, R x y ∧ (f x, y) ∈ (xs.map f).zip ys := by
  induction h with
  | nil => contradiction
  | @cons x' y' xs ys hR _ ih =>
    rcases List.mem_cons.1 hx with rfl | hx
    · exact ⟨y', hR, List.mem_cons_self⟩
    · obtain ⟨y, hy, hmem⟩ := ih hx
      exact ⟨y, hy, List.mem_cons_of_mem _ hmem⟩

end Json

namespace Config

inductive Record where
  | config
  | switches
  | pseudo
  | attributes
  | combinators
  | definitions

inductive Content where
  | record (r : Record)
  | strings
  | policy
  | operators
  | combinators

namespace Record

abbrev Value : Record → Type
  | config => Config
  | switches => Switches
  | pseudo => PseudoSwitches
  | attributes => AttributeSwitches
  | combinators => CombinatorSwitches
  | definitions => Definitions

def read : (r : Record) → Json → Option r.Value
  | config => Config.ofJson?
  | switches => Switches.ofJson?
  | pseudo => PseudoSwitches.ofJson?
  | attributes => AttributeSwitches.ofJson?
  | combinators => CombinatorSwitches.ofJson?
  | definitions => Definitions.ofJson?

end Record

namespace Content

abbrev Value : Content → Type
  | record r => r.Value
  | strings => List String
  | policy => Policy
  | operators => List AttributeOperator
  | combinators => List Combinator

def read : (c : Content) → Json → Option c.Value
  | record r => r.read
  | strings => strings?
  | policy => Policy.ofJson?
  | operators => list? AttributeOperator.ofJson?
  | combinators => list? Combinator.ofJson?

theorem read_null (c : Content) : c.read .null = none := by
  cases c with
  | record r => cases r <;> rfl
  | _ => rfl

end Content

structure Field (r : Record) where
  key : String
  content : Content
  value : r.Value → content.Value
  default : content.Value

namespace Field
variable {r : Record} (f : Field r)

def get (ms : List (String × Json)) : Option f.content.Value :=
  field f.content.read f.key f.default ms

/-- The value of the field among the members, or one that the default is read from. -/
def StandsFor (ms : List (String × Json)) (v : Json) : Prop :=
  ms.lookup f.key = some v ∨ ms.lookup f.key = none ∧ f.content.read v = some f.default

variable {f : Field r} {key : String} {v v' : Json} {ms ns os : List (String × Json)}

theorem get_of_mem (hos : (os.map (·.1)).Nodup) (h : (f.key, v) ∈ os) :
    f.get os = f.content.read v := by
  rw [get, field, (NameMap.lookup_eq_some_iff hos).2 h]

theorem get_append_cons (hos : ((ms ++ (f.key, v) :: ns).map (·.1)).Nodup) :
    f.get (ms ++ (f.key, v) :: ns) = f.content.read v :=
  get_of_mem hos (List.mem_append_right ms List.mem_cons_self)

theorem get_congr (h : f.key ≠ key) :
    f.get (ms ++ (key, v') :: ns) = f.get (ms ++ (key, v) :: ns) := by
  simp only [get, field, List.lookup_append, NameMap.lookup_cons, if_neg h]

theorem StandsFor.read_eq (h : f.StandsFor ms v) : f.content.read v = f.get ms := by
  unfold get field
  rcases h with h | ⟨h, hv⟩
  · rw [h]
  · rw [h, hv]

end Field

namespace Record

def fields : (r : Record) → List (Field r)
  | config =>
    [⟨"modules", .strings, Config.modules, []⟩,
      ⟨"syntax", .record .switches, Config.switches, ({} : Switches)⟩]
  | switches =>
    [⟨"pseudoClasses", .record .pseudo, Switches.pseudoClasses, ({} : PseudoSwitches)⟩,
      ⟨"pseudoElements", .record .pseudo, Switches.pseudoElements, ({} : PseudoSwitches)⟩,
      ⟨"attributes", .record .attributes, Switches.attributes, ({} : AttributeSwitches)⟩,
      ⟨"combinators", .record .combinators, Switches.combinators, ({} : CombinatorSwitches)⟩]
  | pseudo =>
    [⟨"unknown", .policy, PseudoSwitches.unknown, Policy.accept⟩,
      ⟨"definitions", .record .definitions, PseudoSwitches.definitions, ({} : Definitions)⟩]
  | attributes =>
    [⟨"operators", .operators, AttributeSwitches.operators, AttributeOperator.all⟩,
      ⟨"caseSensitivityModifiers", .strings, AttributeSwitches.modifiers, ["i", "s"]⟩,
      ⟨"unknown", .policy, AttributeSwitches.unknown, Policy.accept⟩]
  | combinators =>
    [⟨"allowed", .combinators, CombinatorSwitches.allowed, Combinator.all⟩,
      ⟨"unknown", .policy, CombinatorSwitches.unknown, Policy.accept⟩]
  | definitions =>
    ArgumentGrammar.all.map fun g => ⟨g.name, .strings, fun d => Definitions.names d g, []⟩

def keys (r : Record) : List String := r.fields.map (·.key)

theorem nodup_keys (r : Record) : r.keys.Nodup := by
  cases r <;> decide

theorem read_eq_some_iff {r : Record} {j : Json} {x : r.Value} :
    r.read j = some x ↔
      ∃ ms, members? r.keys j = some ms ∧ ∀ f ∈ r.fields, f.get ms = some (f.value x) := by
  cases r
  case config =>
    obtain ⟨modules, switches⟩ := x
    simp [read, Config.ofJson?, keys, fields, Field.get, Content.read, Option.bind_eq_some_iff]
  case switches =>
    obtain ⟨classes, elements, attributes, combinators⟩ := x
    simp [read, Switches.ofJson?, keys, fields, Field.get, Content.read, Option.bind_eq_some_iff]
  case pseudo =>
    obtain ⟨unknown, definitions⟩ := x
    simp [read, PseudoSwitches.ofJson?, keys, fields, Field.get, Content.read, Option.bind_eq_some_iff]
  case attributes =>
    obtain ⟨operators, modifiers, unknown⟩ := x
    simp [read, AttributeSwitches.ofJson?, keys, fields, Field.get, Content.read,
      Option.bind_eq_some_iff]
  case combinators =>
    obtain ⟨allowed, unknown⟩ := x
    simp [read, CombinatorSwitches.ofJson?, keys, fields, Field.get, Content.read,
      Option.bind_eq_some_iff]
  case definitions =>
    obtain ⟨n, s, f, fs, t, i, d⟩ := x
    simp [read, Definitions.ofJson?, keys, fields, Field.get, Content.read, ArgumentGrammar.all,
      ArgumentGrammar.name, Definitions.names, Option.bind_eq_some_iff]

section
variable {r : Record} {j j' : Json} {os : List (String × Json)}

theorem nodup_of_members? (h : members? r.keys j = some os) : (os.map (·.1)).Nodup := by
  cases j with
  | object ms =>
    obtain ⟨⟨hnodup, -⟩, rfl⟩ := members?_object.1 h
    exact hnodup
  | array vs =>
    obtain ⟨-, rfl⟩ := members?_array.1 h
    rw [map_fst_zip_eq_take]
    exact r.nodup_keys.sublist (List.take_sublist _ _)
  | _ => contradiction

/-- What is done to an object that stands for a record so that it stands for none. -/
inductive Spoils (r : Record) : Json → Json → Prop
  | unknown {key : String} {v : Json} (ms ns : List (String × Json)) : key ∉ r.keys →
      Spoils r (.object (ms ++ ns)) (.object (ms ++ (key, v) :: ns))
  | repeated {key : String} {v v' : Json} (ms ns : List (String × Json)) : (key, v') ∈ ms ++ ns →
      Spoils r (.object (ms ++ ns)) (.object (ms ++ (key, v) :: ns))
  | null {key : String} {v : Json} (ms ns : List (String × Json)) :
      Spoils r (.object (ms ++ (key, v) :: ns)) (.object (ms ++ (key, .null) :: ns))
  | tooMany {ms : List (String × Json)} {vs : List Json} : r.keys.length < vs.length →
      Spoils r (.object ms) (.array vs)

theorem Spoils.read_eq_none (h : Spoils r j j') : r.read j' = none := by
  refine Option.eq_none_iff_forall_ne_some.2 fun x hx => ?_
  obtain ⟨os, hos, hget⟩ := read_eq_some_iff.1 hx
  have hnodup := nodup_of_members? hos
  cases h with
  | unknown ms ns hkey =>
    obtain ⟨⟨-, hkeys⟩, rfl⟩ := members?_object.1 hos
    exact hkey (hkeys _ (by simp))
  | @repeated key v v' ms ns hmem =>
    obtain ⟨-, rfl⟩ := members?_object.1 hos
    have hcons : (((key, v) :: (ms ++ ns)).map (·.1)).Nodup :=
      (List.perm_middle.map _).nodup_iff.1 hnodup
    exact (List.nodup_cons.1 hcons).1 (List.mem_map.2 ⟨_, hmem, rfl⟩)
  | @null key v ms ns =>
    obtain ⟨⟨-, hkeys⟩, rfl⟩ := members?_object.1 hos
    obtain ⟨f, hf, rfl⟩ := List.mem_map.1 (hkeys key (by simp))
    have hread := hget f hf
    rw [Field.get_append_cons hnodup, f.content.read_null] at hread
    contradiction
  | tooMany hlen =>
    obtain ⟨hle, -⟩ := members?_array.1 hos
    omega

/-- The array of the fields in their order, in which those that are missing are at their default. -/
inductive Lists (r : Record) : Json → Json → Prop
  | mk {ms : List (String × Json)} {vs : List Json} :
      List.Forall₂ (fun f v => f.StandsFor ms v) r.fields vs → Lists r (.object ms) (.array vs)

theorem Lists.read_eq_some (h : Lists r j j') {x : r.Value} (hx : r.read j = some x) :
    r.read j' = some x := by
  obtain ⟨os, hos, hget⟩ := read_eq_some_iff.1 hx
  obtain ⟨hvs⟩ := h
  obtain ⟨-, rfl⟩ := members?_object.1 hos
  have hlen : r.keys.length = _ := (List.length_map _).trans hvs.length_eq
  have hmembers := members?_array.2 ⟨hlen.ge, rfl⟩
  refine read_eq_some_iff.2 ⟨_, hmembers, fun f hf => ?_⟩
  obtain ⟨v, hv, hmem⟩ := exists_mem_zip_of_forall₂ (·.key) hvs hf
  rw [f.get_of_mem (nodup_of_members? hmembers) hmem, ← hget f hf]
  exact hv.read_eq

/-- One value is replaced among the members or the elements that stand for a record. -/
inductive Replaces (f : Field r) (v v' : Json) : Json → Json → Prop
  | member (ms ns : List (String × Json)) :
      Replaces f v v' (.object (ms ++ (f.key, v) :: ns)) (.object (ms ++ (f.key, v') :: ns))
  | element {vs ws : List Json} : r.keys[vs.length]? = some f.key →
      Replaces f v v' (.array (vs ++ v :: ws)) (.array (vs ++ v' :: ws))

theorem Replaces.symm {f : Field r} {v v' : Json} (h : Replaces f v v' j j') :
    Replaces f v' v j' j := by
  cases h with
  | member ms ns => exact .member ms ns
  | element h => exact .element h

theorem Replaces.exists_members? {f : Field r} {v v' : Json} (h : Replaces f v v' j j')
    (hos : members? r.keys j = some os) :
    ∃ ms ns, os = ms ++ (f.key, v) :: ns ∧ members? r.keys j' = some (ms ++ (f.key, v') :: ns) := by
  cases h with
  | member ms ns =>
    obtain ⟨hkeys, rfl⟩ := members?_object.1 hos
    exact ⟨ms, ns, rfl, members?_object.2 ⟨by simpa using hkeys, rfl⟩⟩
  | @element vs ws h =>
    obtain ⟨hlen, rfl⟩ := members?_array.1 hos
    obtain ⟨hlt, hkey⟩ := List.getElem?_eq_some_iff.1 h
    have htake : (r.keys.take vs.length).length = vs.length := List.length_take_of_le hlt.le
    have hkeys : r.keys = r.keys.take vs.length ++ f.key :: r.keys.drop (vs.length + 1) := by
      rw [← hkey, ← List.drop_eq_getElem_cons hlt, List.take_append_drop]
    have hzip (u : Json) : r.keys.zip (vs ++ u :: ws) =
        (r.keys.take vs.length).zip vs ++ (f.key, u) :: (r.keys.drop (vs.length + 1)).zip ws := by
      rw [← List.zip_cons_cons, ← List.zip_append htake, ← hkeys]
    exact ⟨_, _, hzip v, members?_array.2 ⟨by simpa using hlen, hzip v'⟩⟩

end

/-- The edit is made to a record at some depth. -/
inductive Within (E : Record → Json → Json → Prop) : Record → Json → Json → Prop
  | here {r : Record} {j j' : Json} : E r j j' → Within E r j j'
  | field {r u : Record} {f : Field r} {v v' j j' : Json} : f ∈ r.fields → f.content = .record u →
      Within E u v v' → Replaces f v v' j j' → Within E r j j'

section
variable {E : Record → Json → Json → Prop} {r : Record} {j j' : Json}

theorem Within.read_eq_none (hE : ∀ {r j j'}, E r j j' → r.read j' = none) (h : Within E r j j') :
    r.read j' = none := by
  induction h with
  | here h => exact hE h
  | @field r u f v v' j j' hf hu hv hrep ih =>
    refine Option.eq_none_iff_forall_ne_some.2 fun x hx => ?_
    obtain ⟨os, hos, hget⟩ := read_eq_some_iff.1 hx
    obtain ⟨ms, ns, rfl, -⟩ := hrep.symm.exists_members? hos
    have hread := hget f hf
    rw [Field.get_append_cons (nodup_of_members? hos)] at hread
    obtain ⟨key, content, value, default⟩ := f
    subst hu
    exact absurd (ih.symm.trans hread) nofun

theorem Within.read_eq_some (hE : ∀ {r j j'}, E r j j' → ∀ x, r.read j = some x → r.read j' = some x)
    (h : Within E r j j') {x : r.Value} (hx : r.read j = some x) : r.read j' = some x := by
  induction h with
  | here h => exact hE h _ hx
  | @field r u f v v' j j' hf hu hv hrep ih =>
    obtain ⟨os, hos, hget⟩ := read_eq_some_iff.1 hx
    obtain ⟨ms, ns, rfl, hos'⟩ := hrep.exists_members? hos
    refine read_eq_some_iff.2 ⟨_, hos', fun g hg => ?_⟩
    have hread := hget g hg
    by_cases hkey : g.key = f.key
    · obtain rfl := List.inj_on_of_nodup_map r.nodup_keys hg hf hkey
      rw [Field.get_append_cons (nodup_of_members? hos)] at hread
      rw [Field.get_append_cons (nodup_of_members? hos')]
      obtain ⟨key, content, value, default⟩ := g
      subst hu
      exact ih hread
    · rw [g.get_congr hkey, hread]

end
end Record

section
variable {text text' : String} {c : Config} {j j' : Json}

theorem ofText_eq_ok_iff (hj : Json.ofText? text = some j) :
    ofText text = .ok c ↔ Record.config.read j = some c := by
  rw [ofText, hj, Option.bind_some, Record.read]
  cases ofJson? j <;> simp

theorem ofText_eq_error (hj : Json.ofText? text = some j) (h : Record.config.read j = none) :
    ofText text = .error .invalidJson := by
  have hread : ofJson? j = none := h
  rw [ofText, hj, Option.bind_some, hread]

/-- A text that is read as a configuration is an error once any record in it is spoiled, and is read as the
same configuration once any record in it is written as an array. -/
theorem ofText_strict (h : ofText text = .ok c) (hj : Json.ofText? text = some j)
    (hj' : Json.ofText? text' = some j') :
    (Record.Within Record.Spoils .config j j' → ofText text' = .error .invalidJson) ∧
      (Record.Within Record.Lists .config j j' → ofText text' = .ok c) := by
  refine ⟨fun hw => ofText_eq_error hj' (hw.read_eq_none Record.Spoils.read_eq_none), fun hw => ?_⟩
  have hread : Record.config.read j = some c := (ofText_eq_ok_iff hj).1 h
  exact (ofText_eq_ok_iff hj').2 (hw.read_eq_some (fun hl _ => hl.read_eq_some) hread)

theorem ofText_strict_policy :
    ofText "\x7b\"syntax\":\x7b\"pseudoClasses\":\x7b\"unknwon\":\"warn\",\"unknown\":\"warn\"\x7d\x7d\x7d" =
        .error .invalidJson ∧
      ofText "\x7b\"syntax\":\x7b\"pseudoClasses\":[\"warn\",\x7b\x7d]\x7d\x7d" =
        .ok { switches := { pseudoClasses := { unknown := .warn } } } := by
  have h : ofText "\x7b\"syntax\":\x7b\"pseudoClasses\":\x7b\"unknown\":\"warn\"\x7d\x7d\x7d" =
      .ok { switches := { pseudoClasses := { unknown := .warn } } } := by cbv
  have hj : Json.ofText? "\x7b\"syntax\":\x7b\"pseudoClasses\":\x7b\"unknown\":\"warn\"\x7d\x7d\x7d" =
      some (.object [("syntax",
        .object [("pseudoClasses", .object [("unknown", .string "warn")])])]) := by cbv
  -- The path to the record of the pseudo classes.
  have hwithin {E : Record → Json → Json → Prop} {v v' : Json} (hE : E .pseudo v v') :
      Record.Within E .config (.object [("syntax", .object [("pseudoClasses", v)])])
        (.object [("syntax", .object [("pseudoClasses", v')])]) :=
    .field (f := Record.config.fields[1]) (by simp) rfl
      (.field (f := Record.switches.fields[0]) (by simp) rfl (.here hE) (.member [] []))
      (.member [] [])
  refine ⟨(ofText_strict h hj (by cbv)).1 (hwithin ?_), (ofText_strict h hj (by cbv)).2 (hwithin ?_)⟩
  · exact .unknown [] _ (by decide)
  · exact ⟨.cons (.inl rfl) (.cons (.inr ⟨rfl, rfl⟩) .nil)⟩

end
end Config
end CssSelector
