import CssSelector.Proofs.Compile
import CssSelector.Proofs.Definitions.Ambiguous

/-!
Why a configuration does not compile. Each error names a problem that the configuration has
(`Config.holds_of_compile`). To tell which source granted a name first, the names granted so far are
followed through the compilation together with the sources that granted them.
-/

set_option autoImplicit false

namespace CssSelector

open Text

/-- Something that grants names, and what it is called in messages. -/
structure Source where
  name : String
  grants : Set Grant

def Source.Grants (s : Source) (category : Category) (name : String) : Prop :=
  ∃ σ, ⟨category, name, σ⟩ ∈ s.grants

/-- The first of the sources that grant the name, with a signature that it grants it with. -/
inductive FirstGrant (category : Category) (name : String) :
    List Source → Signature → String → Prop
  | here {s : Source} {ss : List Source} {σ : Signature} (h : ⟨category, name, σ⟩ ∈ s.grants) :
    FirstGrant category name (s :: ss) σ s.name
  | later {s : Source} {ss : List Source} {σ : Signature} {first : String}
    (hs : ¬s.Grants category name) (h : FirstGrant category name ss σ first) :
    FirstGrant category name (s :: ss) σ first

/-- Of two sources that grant a name with different signatures, the first is the earliest of all that
grant it. -/
def Conflict (ss : List Source) (category : Category) (name first second : String) : Prop :=
  ∃ σ σ', FirstGrant category name ss σ first ∧
    (∃ s ∈ ss, s.name = second ∧ ⟨category, name, σ'⟩ ∈ s.grants) ∧ σ ≠ σ'

namespace Config

def moduleSources (r : Registry) (names : List String) : List Source :=
  (names.filterMap r.find?).map fun m => ⟨m.name, m.grants⟩

def defined (c : Config) : Set Grant :=
  {x | x ∈ (c.switches.pseudo x.category).definitions.grants x.category}

def sources (c : Config) (r : Registry) : List Source :=
  moduleSources r c.modules ++ [⟨source, c.defined⟩]

/-- The name is the smallest one that is granted in both categories, and this is all that is wrong. -/
structure Collides (c : Config) (r : Registry) (name : String) : Prop where
  granted : ∀ category, ∃ σ, ⟨category, name, σ⟩ ∈ c.grants r
  least : ∀ n, (∀ category, ∃ σ, ⟨category, n, σ⟩ ∈ c.grants r) → n = name ∨ bytes name < bytes n
  resolved : ∀ n ∈ c.modules, ∃ m, r.find? n = some m
  unambiguous : ∀ category, (c.switches.pseudo category).definitions.Unambiguous
  agreed : Agreed (c.grants r)

end Config

/-- What an error says of a configuration. -/
def ConfigError.Holds (c : Config) (r : Registry) : ConfigError → Prop
  | .unknownModule name => c.modules.find? (fun n => (r.find? n).isNone) = some name
  | .conflictingGrammar category name first second =>
    Conflict (c.sources r) category name first second
  | .categoryCollision name => c.Collides r name
  | .ambiguousDefinition category name first second =>
    (c.switches.pseudo category).definitions.Smallest name first second ∧
      ∀ n, (c.switches.pseudo category).definitions.Ambiguous n → n = name ∨ bytes name < bytes n
  | .invalidJson => False

theorem bind_eq_error {α β ε : Type} {x : Except ε α} {f : α → Except ε β} {e : ε}
    (h : x >>= f = .error e) : x = .error e ∨ ∃ a, x = .ok a ∧ f a = .error e := by
  cases x with
  | error e' =>
    cases h
    exact .inl rfl
  | ok a => exact .inr ⟨a, rfl, h⟩

section
variable {category : Category} {name first second : String} {σ : Signature} {ss : List Source}

theorem FirstGrant.append_right (h : FirstGrant category name ss σ first) (us : List Source) :
    FirstGrant category name (ss ++ us) σ first := by
  induction h with
  | here h => exact .here h
  | later hs _ ih => exact .later hs ih

theorem FirstGrant.mono {k : String} {G G' : Set Grant} (hG : G ⊆ G')
    (h : FirstGrant category name (ss ++ [⟨k, G⟩]) σ first) :
    FirstGrant category name (ss ++ [⟨k, G'⟩]) σ first := by
  induction ss with
  | nil =>
    cases h with
    | here h => exact .here (s := ⟨k, G'⟩) (hG h)
    | later _ h => cases h
  | cons s ss ih =>
    cases h with
    | here h => exact .here h
    | later hs h => exact .later hs (ih h)

theorem FirstGrant.last {s : Source} (hss : ∀ u ∈ ss, ¬u.Grants category name)
    (h : ⟨category, name, σ⟩ ∈ s.grants) : FirstGrant category name (ss ++ [s]) σ s.name := by
  induction ss with
  | nil => exact .here h
  | cons u ss ih =>
    obtain ⟨hu, hss⟩ := List.forall_mem_cons.1 hss
    exact .later hu (ih hss)

theorem Conflict.append_right (h : Conflict ss category name first second) (us : List Source) :
    Conflict (ss ++ us) category name first second := by
  obtain ⟨σ, σ', hfirst, ⟨s, hs, hsecond⟩, hne⟩ := h
  exact ⟨σ, σ', hfirst.append_right us, ⟨s, List.mem_append_left us hs, hsecond⟩, hne⟩

theorem Conflict.mono {k : String} {G G' : Set Grant} (hG : G ⊆ G')
    (h : Conflict (ss ++ [⟨k, G⟩]) category name first second) :
    Conflict (ss ++ [⟨k, G'⟩]) category name first second := by
  obtain ⟨σ, σ', hfirst, ⟨s, hs, hn, hx⟩, hne⟩ := h
  refine ⟨σ, σ', hfirst.mono hG, ?_, hne⟩
  obtain hs | hs := List.mem_append.1 hs
  · exact ⟨s, List.mem_append_left _ hs, hn, hx⟩
  · obtain rfl := List.mem_singleton.1 hs
    exact ⟨⟨k, G'⟩, by simp, hn, hG hx⟩

end

namespace Grants
variable {t : Grants} {ss : List Source} {G : Set Grant} {k : String} {category : Category}

/-- A name is held if one of the sources grants it, and with what the first of them says. -/
structure Follows (t : Grants) (ss : List Source) : Prop where
  fresh : ∀ category name, (t.table category).find? name = none →
    ∀ s ∈ ss, ¬s.Grants category name
  first : ∀ category name σ first, (t.table category).find? name = some (σ, first) →
    FirstGrant category name ss σ first

theorem follows_empty : empty.Follows [] where
  fresh _ _ _ := nofun
  first category name σ first h := by cases category <;> exact absurd h nofun

theorem Follows.enter (h : t.Follows ss) (k : String) : t.Follows (ss ++ [⟨k, ∅⟩]) where
  fresh category name hfind s hs := by
    obtain hs | hs := List.mem_append.1 hs
    · exact h.fresh category name hfind s hs
    · obtain rfl := List.mem_singleton.1 hs
      exact fun ⟨_, hx⟩ => hx
  first category name σ first hfind := (h.first category name σ first hfind).append_right _

/-- The grants after a step follow the sources, or it has come to a conflict between them. -/
def Traced (ss : List Source) : Except ConfigError Grants → Prop
  | .ok t => t.Follows ss
  | .error e => ∃ category name first second,
    e = .conflictingGrammar category name first second ∧ Conflict ss category name first second

theorem traced_grant (h : t.Follows (ss ++ [⟨k, G⟩])) (category : Category) (d : Definition) :
    Traced (ss ++ [⟨k, G ∪ {d.grant category}⟩]) (grant category k t d) := by
  have hG : G ⊆ G ∪ {d.grant category} := Set.subset_union_left
  have hnew : d.grant category ∈ G ∪ {d.grant category} := .inr rfl
  unfold grant
  dsimp only
  cases hfind : (t.table category).find? (fold d.name) with
  | none =>
    have hfresh := h.fresh category (fold d.name) hfind
    refine ⟨fun c n hn s hs => ?_, fun c n σ first hn => ?_⟩
    · rw [find?_withTable] at hn
      split at hn
      · contradiction
      case isFalse hother =>
        obtain hs | hs := List.mem_append.1 hs
        · exact h.fresh c n hn s (List.mem_append_left _ hs)
        · obtain rfl := List.mem_singleton.1 hs
          rintro ⟨σ, hx | hx⟩
          · exact h.fresh c n hn ⟨k, G⟩ (by simp) ⟨σ, hx⟩
          · cases hx
            exact hother ⟨rfl, rfl⟩
    · rw [find?_withTable] at hn
      split at hn
      case isTrue hsame =>
        obtain ⟨rfl, rfl⟩ := hsame
        cases hn
        have hss (u : Source) (hu : u ∈ ss) := hfresh u (List.mem_append_left _ hu)
        exact .last (s := ⟨k, G ∪ {d.grant c}⟩) hss hnew
      case isFalse => exact (h.first c n σ first hn).mono hG
  | some e =>
    obtain ⟨s, first⟩ := e
    have hfirst := (h.first category (fold d.name) s first hfind).mono hG
    dsimp only
    split
    case isTrue heq =>
      refine ⟨fun c n hn u hu => ?_, fun c n σ first hn => (h.first c n σ first hn).mono hG⟩
      obtain hu | hu := List.mem_append.1 hu
      · exact h.fresh c n hn u (List.mem_append_left _ hu)
      · obtain rfl := List.mem_singleton.1 hu
        rintro ⟨σ, hx | hx⟩
        · exact h.fresh c n hn ⟨k, G⟩ (by simp) ⟨σ, hx⟩
        · cases hx
          exact absurd (hn.symm.trans hfind) nofun
    case isFalse hne =>
      exact ⟨category, fold d.name, first, k, rfl, s, d.signature, hfirst,
        ⟨_, List.mem_append_right _ (List.mem_singleton.2 rfl), rfl, hnew⟩, hne⟩

theorem traced_grants (h : t.Follows (ss ++ [⟨k, G⟩])) (category : Category)
    (ds : List Definition) :
    Traced (ss ++ [⟨k, G ∪ {x | ∃ d ∈ ds, d.grant category = x}⟩])
      (ds.foldlM (grant category k) t) := by
  induction ds generalizing t G with
  | nil =>
    have hnone : G ∪ {x | ∃ d ∈ ([] : List Definition), d.grant category = x} = G := by simp
    rw [hnone]
    exact h
  | cons d ds ih =>
    have hunion : G ∪ {x | ∃ e ∈ d :: ds, e.grant category = x} =
        G ∪ {d.grant category} ∪ {x | ∃ e ∈ ds, e.grant category = x} := by
      ext x
      simp only [List.mem_cons, exists_eq_or_imp, Set.mem_union, Set.mem_ofPred_eq,
        Set.mem_singleton_iff, or_assoc, eq_comm (a := x)]
    have hd := traced_grant h category d
    rw [hunion, List.foldlM_cons]
    cases ht : grant category k t d with
    | ok t' =>
      rw [ht] at hd
      exact ih hd
    | error e =>
      rw [ht] at hd
      obtain ⟨c, name, first, second, he, hconflict⟩ := hd
      exact ⟨c, name, first, second, he, hconflict.mono Set.subset_union_left⟩

theorem traced_module (h : t.Follows ss) (m : Module) :
    Traced (ss ++ [⟨m.name, m.grants⟩])
      (m.pseudoClasses.foldlM (grant .pseudoClass m.name) t >>=
        (m.pseudoElements.foldlM (grant .pseudoElement m.name) ·)) := by
  have hgrants : m.grants = ∅ ∪ {x | ∃ d ∈ m.pseudoClasses, d.grant .pseudoClass = x} ∪
      {x | ∃ d ∈ m.pseudoElements, d.grant .pseudoElement = x} := by
    ext ⟨c, name, σ⟩
    cases c <;> simp [Module.grants, Module.definitions, Definition.grant]
  have hclasses := traced_grants (h.enter m.name) .pseudoClass m.pseudoClasses
  rw [hgrants]
  cases ht : m.pseudoClasses.foldlM (grant .pseudoClass m.name) t with
  | ok t' =>
    rw [ht] at hclasses
    exact traced_grants hclasses .pseudoElement m.pseudoElements
  | error e =>
    rw [ht] at hclasses
    obtain ⟨c, name, first, second, he, hconflict⟩ := hclasses
    exact ⟨c, name, first, second, he, hconflict.mono Set.subset_union_left⟩

theorem enable_cases (h : t.Follows ss) (r : Registry) (names : List String) :
    Traced (ss ++ Config.moduleSources r names) (names.foldlM (enable r) t) ∨
      ∃ n, names.foldlM (enable r) t = .error (.unknownModule n) ∧
        names.find? (fun n => (r.find? n).isNone) = some n := by
  induction names generalizing t ss with
  | nil =>
    rw [show Config.moduleSources r [] = [] from rfl, List.append_nil]
    exact .inl h
  | cons n names ih =>
    rw [List.foldlM_cons]
    cases hm : r.find? n with
    | none =>
      refine .inr ⟨n, ?_, by simp [hm]⟩
      simp [enable, Registry.resolve, hm, bind, Except.bind]
    | some m =>
      have hsources : ss ++ Config.moduleSources r (n :: names) =
          ss ++ [⟨m.name, m.grants⟩] ++ Config.moduleSources r names := by
        simp [Config.moduleSources, hm]
      have hfind : (n :: names).find? (fun n => (r.find? n).isNone) =
          names.find? (fun n => (r.find? n).isNone) := by simp [hm]
      have henable : enable r t n = (m.pseudoClasses.foldlM (grant .pseudoClass m.name) t >>=
          (m.pseudoElements.foldlM (grant .pseudoElement m.name) ·)) := by
        simp only [enable, Registry.resolve, hm]
        rfl
      have hmodule := traced_module h m
      rw [← henable] at hmodule
      rw [hsources, hfind]
      cases ht : enable r t n with
      | ok t' =>
        rw [ht] at hmodule
        exact ih hmodule
      | error e =>
        rw [ht] at hmodule
        obtain ⟨c, name, first, second, he, hconflict⟩ := hmodule
        exact .inl ⟨c, name, first, second, he, hconflict.append_right _⟩

theorem define_cases (h : t.Follows (ss ++ [⟨Config.source, G⟩])) (d : Definitions)
    (category : Category) :
    Traced (ss ++ [⟨Config.source, G ∪ d.grants category⟩]) (t.define d category) ∨
      ∃ name g h, t.define d category = .error (.ambiguousDefinition category name g h) ∧
        d.Smallest name g h ∧ ∀ n, d.Ambiguous n → n = name ∨ bytes name < bytes n := by
  rw [define]
  obtain ⟨ds, hds, -, hmem⟩ | ⟨⟨e, he⟩, -⟩ := d.signatures_cases category
  · rw [hds, Definitions.grants_eq category hmem]
    exact .inl (traced_grants h category ds)
  · obtain ⟨name, g, h, rfl, hsmallest⟩ := Definitions.smallest_of_signatures he
    rw [he]
    exact .inr ⟨name, g, h, rfl, hsmallest⟩

theorem holds_of_gather {c : Config} {r : Registry} {e : ConfigError}
    (h : gather c r .empty = .error e) : e.Holds c r := by
  let classes := c.switches.pseudoClasses.definitions
  let elements := c.switches.pseudoElements.definitions
  have hdefined : c.defined = ∅ ∪ classes.grants .pseudoClass ∪ elements.grants .pseudoElement := by
    ext ⟨category, name, σ⟩
    cases category <;> simp [Config.defined, Definitions.grants, Switches.pseudo, classes, elements]
  have hsources : c.sources r = Config.moduleSources r c.modules ++
      [⟨Config.source, ∅ ∪ classes.grants .pseudoClass ∪ elements.grants .pseudoElement⟩] := by
    rw [Config.sources, hdefined]
  obtain hmodules | ⟨n, hn, hfind⟩ := enable_cases follows_empty r c.modules
  case inr =>
    rw [gather, hn] at h
    cases h
    exact hfind
  rw [List.nil_append] at hmodules
  obtain hm | ⟨t₁, hm, h⟩ := bind_eq_error h <;> rw [hm] at hmodules
  · obtain ⟨category, name, first, second, rfl, hconflict⟩ := hmodules
    exact hconflict.append_right _
  obtain hclasses | ⟨name, g, g', hd, hsmallest⟩ :=
    define_cases (hmodules.enter Config.source) classes .pseudoClass
  case inr =>
    rw [hd] at h
    cases h
    exact hsmallest
  obtain hm | ⟨t₂, hm, h⟩ := bind_eq_error h <;> rw [hm] at hclasses
  · obtain ⟨category, name, first, second, rfl, hconflict⟩ := hclasses
    rw [ConfigError.Holds, hsources]
    exact hconflict.mono Set.subset_union_left
  obtain helements | ⟨name, g, g', hd, hsmallest⟩ := define_cases hclasses elements .pseudoElement
  case inr =>
    rw [hd] at h
    cases h
    exact hsmallest
  rw [h] at helements
  obtain ⟨category, name, first, second, rfl, hconflict⟩ := helements
  rw [ConfigError.Holds, hsources]
  exact hconflict

theorem checkDisjoint_eq_error {e : ConfigError} (h : t.checkDisjoint = .error e) :
    ∃ name, e = .categoryCollision name ∧ (∀ category, ∃ σ, ⟨category, name, σ⟩ ∈ t.held) ∧
      ∀ n, (∀ category, ∃ σ, ⟨category, n, σ⟩ ∈ t.held) → n = name ∨ bytes name < bytes n := by
  simp only [← mem_keys_table]
  rw [checkDisjoint] at h
  split at h
  case h_2 => contradiction
  case h_1 name hfind =>
    cases h
    obtain ⟨hboth, before, after, hkeys, hbefore⟩ := List.find?_eq_some_iff_append.1 hfind
    refine ⟨name, rfl, fun category => ?_, fun n hn => ?_⟩
    · cases category with
      | pseudoClass => exact List.mem_of_find?_eq_some hfind
      | pseudoElement => exact NameMap.contains_iff.1 hboth
    · have hclass : n ∈ t.pseudoClasses.keys := hn .pseudoClass
      have hsorted : t.pseudoClasses.keys.Pairwise (· < ·) :=
        List.pairwise_map.2 t.pseudoClasses.sorted
      rw [hkeys] at hclass hsorted
      obtain hlow | hhigh := List.mem_append.1 hclass
      · have hnot : t.pseudoElements.contains n = false := by simpa using hbefore n hlow
        exact absurd (NameMap.contains_iff.2 (hn .pseudoElement)) (Bool.eq_false_iff.1 hnot)
      · refine (List.mem_cons.1 hhigh).imp_right fun hmem => bytes_lt ?_
        exact (List.pairwise_cons.1 (List.pairwise_append.1 hsorted).2.1).1 n hmem

end Grants

namespace Config

/-- An error in compiling names a problem of the configuration. -/
theorem holds_of_compile {c : Config} {r : Registry} {e : ConfigError}
    (h : c.compile r = .error e) : e.Holds c r := by
  rw [compile_eq] at h
  obtain hgather | ⟨t, hgather, h⟩ := bind_eq_error h
  · exact Grants.holds_of_gather hgather
  · obtain ⟨⟨hres, hun⟩, hheld⟩ := by
      have hadds := Grants.adds_gather c r .empty
      rwa [hgather, Grants.Added, Grants.held_empty, Set.empty_union] at hadds
    obtain hd | ⟨-, -, h⟩ := bind_eq_error h
    · obtain ⟨name, rfl, hgranted, hleast⟩ := Grants.checkDisjoint_eq_error hd
      rw [hheld] at hgranted hleast
      exact ⟨hgranted, hleast, hres, hun, hheld ▸ t.agreed_held⟩
    · contradiction

/-- The definition takes an argument, and the module that grants the name first takes none. -/
theorem holds_of_conflict :
    let r : Registry := .ofList [⟨"one", [.noArgument "x"], []⟩, ⟨"two", [], [.noArgument "y"]⟩]
    let c : Config := ⟨["two", "one"], { pseudoClasses := { definitions := { selector := ["X"] } } }⟩
    let e : ConfigError := .conflictingGrammar .pseudoClass "x" "one" "syntax"
    c.compile r = .error e ∧ e.Holds c r := by
  intro r c e
  have h : c.compile r = .error e := by cbv
  exact ⟨h, holds_of_compile h⟩

example :
    let d : Definitions := { number := ["a"], formula := ["A"], selector := ["a"] }
    (⟨[], { pseudoElements := { definitions := d } }⟩ : Config).compile .empty =
      .error (.ambiguousDefinition .pseudoElement "a" .selector .formula) := by
  cbv

end Config
end CssSelector
