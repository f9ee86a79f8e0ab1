import CssSelector.Proofs.Compile.Similar

/-!
Modules and definitions are two spellings of the same thing. Whatever a configuration enables, the names
that its dialect knows can be listed as definitions, each under the grammars of its signature, and these
alone compile to the same dialect (`Config.compile_flatten`). A registry may hold a signature that no
list of grammars has; the built-in one does not.
-/

set_option autoImplicit false

namespace CssSelector

open Text

namespace Definitions
variable {d : Definitions} {g : ArgumentGrammar} {name : String} {s : Signature}

theorem mem_names_add {n : String} {k : ArgumentGrammar} :
    n ∈ (d.add name k).names g ↔ n ∈ d.names g ∨ n = name ∧ g = k := by
  cases k <;> cases g <;> simp [add, names]

theorem mem_names_foldl_add {n : String} {gs : List ArgumentGrammar} :
    n ∈ (gs.foldl (add · name) d).names g ↔ n ∈ d.names g ∨ n = name ∧ g ∈ gs := by
  induction gs generalizing d with
  | nil => simp
  | cons k gs ih =>
    rw [List.foldl_cons, ih, mem_names_add, List.mem_cons, or_assoc, ← and_or_left]

def ofSignatures (m : NameMap Signature) : Definitions :=
  m.entries.foldl (fun d (name, s) => s.grammars.foldl (add · name) d) {}

theorem mem_names_ofSignatures {m : NameMap Signature} :
    name ∈ (ofSignatures m).names g ↔ ∃ s, (name, s) ∈ m.entries ∧ g ∈ s.grammars := by
  have hfoldl (es : List (String × Signature)) (d : Definitions) :
      name ∈ (es.foldl (fun d (n, s) => s.grammars.foldl (add · n) d) d).names g ↔
        name ∈ d.names g ∨ ∃ s, (name, s) ∈ es ∧ g ∈ s.grammars := by
    induction es generalizing d with
    | nil => simp
    | cons e es ih =>
      obtain ⟨n, s⟩ := e
      rw [List.foldl_cons, ih, mem_names_foldl_add, or_assoc]
      simp only [List.mem_cons, Prod.mk.injEq, or_and_right, exists_or, and_assoc,
        exists_and_left, exists_eq_left]
  have hnone : name ∉ ({} : Definitions).names g := by cases g <;> exact List.not_mem_nil
  rw [ofSignatures, hfoldl, or_iff_right hnone]

theorem Grants.definable (h : d.Grants name s) : s.Definable := by
  refine ⟨?_, fun harg => ((h.argument _).1 harg).1 rfl⟩
  obtain ⟨g, hg⟩ := h.listed
  by_cases hne : g = .noArgument
  · exact .inl (h.bare.2 (hne ▸ hg))
  · exact .inr (Option.ne_none_iff_exists'.2 ⟨g, (h.argument g).2 ⟨hne, hg⟩⟩)

section
variable {m : NameMap Signature} (hm : ∀ e ∈ m.entries, fold e.1 = e.1 ∧ e.2.Definable)
include hm

theorem lists_ofSignatures :
    (ofSignatures m).Lists g name ↔ ∃ s, (name, s) ∈ m.entries ∧ g ∈ s.grammars := by
  simp only [Lists, mem_names_ofSignatures]
  constructor
  · rintro ⟨n, ⟨s, he, hg⟩, rfl⟩
    rw [(hm _ he).1]
    exact ⟨s, he, hg⟩
  · rintro ⟨s, he, hg⟩
    exact ⟨name, ⟨s, he, hg⟩, (hm _ he).1⟩

theorem lists_ofSignatures_of_mem (he : (name, s) ∈ m.entries) :
    (ofSignatures m).Lists g name ↔ g ∈ s.grammars := by
  rw [lists_ofSignatures hm]
  refine ⟨fun ⟨s', he', hg⟩ => ?_, fun hg => ⟨s, he, hg⟩⟩
  have hs := (NameMap.find?_eq_some_iff.2 he).symm.trans (NameMap.find?_eq_some_iff.2 he')
  rwa [Option.some.inj hs]

theorem grants_ofSignatures_of_mem (he : (name, s) ∈ m.entries) :
    (ofSignatures m).Grants name s := by
  have hs := (hm _ he).2
  have hl {g : ArgumentGrammar} := lists_ofSignatures_of_mem (g := g) hm he
  obtain ⟨g, hg⟩ := List.exists_mem_of_ne_nil _ hs.grammars_ne_nil
  refine ⟨⟨g, hl.2 hg⟩, hs.noArgument_mem_grammars.symm.trans hl.symm, fun g => ?_⟩
  rw [hl]
  refine ⟨fun harg => ?_, fun ⟨hne, hg⟩ => (Signature.mem_grammars_of_ne hne).1 hg⟩
  have hne : g ≠ .noArgument := fun h => hs.argument (h ▸ harg)
  exact ⟨hne, (Signature.mem_grammars_of_ne hne).2 harg⟩

theorem grants_ofSignatures_iff : (ofSignatures m).Grants name s ↔ (name, s) ∈ m.entries := by
  refine ⟨fun h => ?_, grants_ofSignatures_of_mem hm⟩
  obtain ⟨g, hg⟩ := h.listed
  obtain ⟨s', he, -⟩ := (lists_ofSignatures hm).1 hg
  -- a name is granted with one signature only
  have h' := grants_ofSignatures_of_mem hm he
  obtain rfl : s = s' := Signature.eq_iff.2 ⟨h.bare.trans h'.bare.symm,
    fun g => (h.argument g).trans (h'.argument g).symm⟩
  exact he

theorem unambiguous_ofSignatures : (ofSignatures m).Unambiguous := by
  intro name g k hg hk hgn hkn
  obtain ⟨s, he, hg⟩ := (lists_ofSignatures hm).1 hg
  rw [lists_ofSignatures_of_mem hm he, Signature.mem_grammars_of_ne hkn] at hk
  rw [Signature.mem_grammars_of_ne hgn] at hg
  exact Option.some.inj (hg.symm.trans hk)

end
end Definitions

namespace Registry

def Definable (r : Registry) : Prop :=
  ∀ n m, r.find? n = some m → ∀ category, ∀ e ∈ m.definitions category, e.signature.Definable

theorem mem_of_find?_foldl {ms : List Module} {r : Registry} {n : String} {m : Module}
    (h : (ms.foldl register r).find? n = some m) : m ∈ ms ∨ r.find? n = some m := by
  induction ms generalizing r with
  | nil => exact .inr h
  | cons k ms ih =>
    obtain hmem | hfind := ih h
    · exact .inl (List.mem_cons_of_mem k hmem)
    · rw [register, find?, NameMap.find?_insert] at hfind
      split at hfind
      · exact .inl (Option.some.inj hfind ▸ List.mem_cons_self)
      · exact .inr hfind

theorem definable_builtin : builtin.Definable := by
  intro n m h category e he
  have hall : ∀ m ∈ [Module.cssPosition1, .cssPosition2, .cssPosition3, .cssPosition4, .cssScoping1,
      .cssShadowParts1, .cssPseudo4, .selectors3, .selectors4],
      ∀ e ∈ m.pseudoClasses ++ m.pseudoElements, e.signature.Definable := by decide
  refine hall m ((mem_of_find?_foldl h).resolve_right nofun) e (List.mem_append.2 ?_)
  cases category with
  | pseudoClass => exact .inl he
  | pseudoElement => exact .inr he

end Registry

namespace Config
variable {c : Config} {r₀ r : Registry} {d : Dialect}

/-- The configuration without modules that defines every name that the dialect knows, and has the
policies and all other switches of `c`. -/
def flatten (c : Config) (d : Dialect) : Config :=
  { modules := []
    switches :=
      { c.switches with
        pseudoClasses := ⟨c.switches.pseudoClasses.unknown, .ofSignatures (d.known .pseudoClass)⟩
        pseudoElements :=
          ⟨c.switches.pseudoElements.unknown, .ofSignatures (d.known .pseudoElement)⟩ } }

theorem fold_of_mem_grants {x : Grant} (hx : x ∈ c.grants r) : fold x.name = x.name := by
  rcases hx with ⟨_, _, _, _, e, _, he⟩ | ⟨_, h⟩
  · rw [← he]
    exact fold_fold e.name
  · exact h.fold_eq

theorem definable_of_mem_grants (hr : r.Definable) {x : Grant} (hx : x ∈ c.grants r) :
    x.signature.Definable := by
  rcases hx with ⟨n, _, m, hm, e, hmem, he⟩ | ⟨_, h⟩
  · rw [← he]
    exact hr n m hm _ e hmem
  · exact h.definable

theorem definitions_flatten (c : Config) (d : Dialect) (category : Category) :
    ((c.flatten d).switches.pseudo category).definitions = .ofSignatures (d.known category) := by
  cases category <;> rfl

section
variable (hr : r₀.Definable) (hu : d.Unites c r₀)
include hr hu

theorem definable_known (category : Category) :
    ∀ e ∈ (d.known category).entries, fold e.1 = e.1 ∧ e.2.Definable := by
  rintro ⟨name, s⟩ he
  have hx := (hu.known category name s).1 he
  exact ⟨fold_of_mem_grants hx, definable_of_mem_grants hr hx⟩

theorem grants_flatten (r : Registry) : (c.flatten d).grants r = c.grants r₀ := by
  ext ⟨category, name, s⟩
  rw [← hu.known, ← Definitions.grants_ofSignatures_iff (definable_known hr hu category)]
  simp only [grants, Set.mem_ofPred_eq, definitions_flatten, Definitions.grants, true_and]
  refine or_iff_right ?_
  rintro ⟨_, hn, _⟩
  exact List.not_mem_nil hn

theorem coherent_flatten (hc : c.Coherent r₀) (r : Registry) : (c.flatten d).Coherent r where
  resolved _ hn := absurd hn List.not_mem_nil
  unambiguous category := by
    rw [definitions_flatten]
    exact Definitions.unambiguous_ofSignatures (definable_known hr hu category)
  agreed := grants_flatten hr hu r ▸ hc.agreed
  disjoint := grants_flatten hr hu r ▸ hc.disjoint

theorem unites_flatten (r : Registry) : d.Unites (c.flatten d) r where
  sorted := hu.sorted
  known category name s := grants_flatten hr hu r ▸ hu.known category name s
  found category name s := grants_flatten hr hu r ▸ hu.found category name s
  disjoint := hu.disjoint
  pseudoClassPolicy := hu.pseudoClassPolicy
  pseudoElementPolicy := hu.pseudoElementPolicy
  attributes := hu.attributes
  combinators := hu.combinators

end

theorem compile_flatten_of_definable (hr : r₀.Definable) (h : c.compile r₀ = .ok d) (r : Registry) :
    (c.flatten d).compile r = .ok d := by
  obtain ⟨hc, hu⟩ := coherent_of_compile h
  obtain ⟨d', hd', hu'⟩ := compile_of_coherent (coherent_flatten hr hu hc r)
  rw [hd', hu'.unique (unites_flatten hr hu r)]

/-- What is compiled with the built-in modules is compiled from its names alone, with any modules. -/
theorem compile_flatten (h : c.compile .builtin = .ok d) (r : Registry) :
    (c.flatten d).compile r = .ok d :=
  compile_flatten_of_definable Registry.definable_builtin h r

theorem compile_flatten_of_host :
    let own : Definitions := { noArgument := ["NTH"], formula := ["nth"] }
    let c : Config := ⟨["css-scoping-1"], { pseudoClasses := { definitions := own } }⟩
    ∃ d, c.compile .builtin = .ok d ∧ (c.flatten d).compile .empty = .ok d ∧
      (c.flatten d).switches.pseudoClasses.definitions =
        { noArgument := ["host", "nth"], selector := ["host", "host-context"], formula := ["nth"] } ∧
      (c.flatten d).switches.pseudoElements.definitions = { selector := ["slotted"] } := by
  intro own c
  have hrun : (c.compile .builtin).map (fun d =>
      ((c.flatten d).switches.pseudoClasses.definitions,
        (c.flatten d).switches.pseudoElements.definitions)) =
      .ok ({ noArgument := ["host", "nth"], selector := ["host", "host-context"], formula := ["nth"] },
        { selector := ["slotted"] }) := by cbv
  obtain ⟨d, hd, hlisted⟩ := exists_of_map_eq_ok hrun
  obtain ⟨hclasses, helements⟩ := Prod.mk.inj hlisted
  exact ⟨d, hd, compile_flatten hd .empty, hclasses, helements⟩

end Config
end CssSelector
