import CssSelector.Proofs.Definitions

/-!
What a configuration compiles to. Its modules and its own definitions grant names; the names granted
so far are followed through the steps of the compilation, each of which adds what it is to grant or
fails because two grants of a name disagree.
-/

set_option autoImplicit false

namespace CssSelector

open Text

structure Grant where
  category : Category
  name : String
  signature : Signature

def Agreed (s : Set Grant) : Prop :=
  ∀ x ∈ s, ∀ y ∈ s, x.category = y.category → x.name = y.name → x.signature = y.signature

theorem Agreed.mono {s t : Set Grant} (h : Agreed t) (hs : s ⊆ t) : Agreed s :=
  fun x hx y hy => h x (hs hx) y (hs hy)

def Definition.grant (d : Definition) (category : Category) : Grant :=
  ⟨category, fold d.name, d.signature⟩

namespace Module

def grants (m : Module) : Set Grant :=
  {x | ∃ d ∈ m.definitions x.category, d.grant x.category = x}

end Module

namespace Definitions

def grants (d : Definitions) (category : Category) : Set Grant :=
  {x | x.category = category ∧ d.Grants x.name x.signature}

theorem grants_eq {d : Definitions} {ds : List Definition} (category : Category)
    (hmem : ∀ x, x ∈ ds ↔ d.Grants x.name x.signature) :
    d.grants category = {x | ∃ e ∈ ds, e.grant category = x} := by
  ext x
  simp only [Set.mem_ofPred_eq, hmem, grants]
  constructor
  · rintro ⟨rfl, hx⟩
    refine ⟨⟨x.name, x.signature⟩, hx, ?_⟩
    rw [Definition.grant, hx.fold_eq]
  · rintro ⟨e, he, rfl⟩
    refine ⟨rfl, ?_⟩
    rw [Definition.grant, he.fold_eq]
    exact he

end Definitions

namespace Config

def grants (c : Config) (r : Registry) : Set Grant :=
  {x | (∃ n ∈ c.modules, ∃ m, r.find? n = some m ∧ x ∈ m.grants) ∨
    x ∈ (c.switches.pseudo x.category).definitions.grants x.category}

/-- The modules are there, and nothing that is granted disagrees with anything else. -/
structure Coherent (c : Config) (r : Registry) : Prop where
  resolved : ∀ n ∈ c.modules, ∃ m, r.find? n = some m
  unambiguous : ∀ category, (c.switches.pseudo category).definitions.Unambiguous
  agreed : Agreed (c.grants r)
  disjoint : ∀ x ∈ c.grants r, ∀ y ∈ c.grants r, x.name = y.name → x.category = y.category

end Config

/-- The dialect knows what the configuration grants, and has its switches. -/
structure Dialect.Unites (d : Dialect) (c : Config) (r : Registry) : Prop where
  sorted : ∀ category, (d.known category).entries.Pairwise fun x y => bytes x.1 < bytes y.1
  known : ∀ category name s, (name, s) ∈ (d.known category).entries ↔ ⟨category, name, s⟩ ∈ c.grants r
  found : ∀ category name s,
    d.signature? category name = some s ↔ ⟨category, fold name, s⟩ ∈ c.grants r
  disjoint : d.pseudoClasses.keys.Disjoint d.pseudoElements.keys
  pseudoClassPolicy : d.pseudoClassPolicy = c.switches.pseudoClasses.unknown
  pseudoElementPolicy : d.pseudoElementPolicy = c.switches.pseudoElements.unknown
  attributes : d.attributes = c.switches.attributes
  combinators : d.combinators = c.switches.combinators

namespace Grants

def held (t : Grants) : Set Grant :=
  {x | ∃ source, (t.table x.category).find? x.name = some (x.signature, source)}

theorem held_empty : empty.held = ∅ := by
  refine Set.eq_empty_of_forall_notMem fun x ⟨source, h⟩ => ?_
  cases hx : x.category <;> rw [hx] at h <;> exact absurd h nofun

theorem agreed_held (t : Grants) : Agreed t.held := by
  intro x ⟨_, hx⟩ y ⟨_, hy⟩ hc hn
  rw [hc, hn, hy, Option.some.injEq, Prod.mk.injEq] at hx
  exact hx.1.symm

/-- The outcome of a step that adds grants where `P` holds and they agree with one another and with
what was granted before, and that fails otherwise. -/
def Added (P : Prop) (s : Set Grant) (t : Grants) : Except ConfigError Grants → Prop
  | .ok t' => P ∧ t'.held = t.held ∪ s
  | .error _ => P → ¬ Agreed (t.held ∪ s)

def Adds (P : Prop) (s : Set Grant) (f : Grants → Except ConfigError Grants) : Prop :=
  ∀ t, Added P s t (f t)

section
variable {P Q : Prop} {s u : Set Grant} {f g : Grants → Except ConfigError Grants}

theorem Adds.bind (hf : Adds P s f) (hg : Adds Q u g) :
    Adds (P ∧ Q) (s ∪ u) fun t => f t >>= g := by
  intro t
  have ht := hf t
  dsimp only
  cases hft : f t with
  | error e =>
    rw [hft] at ht
    intro ⟨hP, _⟩ h
    refine ht hP (h.mono ?_)
    exact Set.union_subset_union_right _ Set.subset_union_left
  | ok t₁ =>
    rw [hft] at ht
    obtain ⟨hP, hheld⟩ := ht
    have hgt := hg t₁
    change Added _ _ t (g t₁)
    cases hgt₁ : g t₁ with
    | error e =>
      rw [hgt₁, Added, hheld, Set.union_assoc] at hgt
      exact fun ⟨_, hQ⟩ => hgt hQ
    | ok t₂ =>
      rw [hgt₁, Added, hheld, Set.union_assoc] at hgt
      exact ⟨⟨hP, hgt.1⟩, hgt.2⟩

theorem Adds.pure : Adds True ∅ Except.ok := fun _ => ⟨trivial, (Set.union_empty _).symm⟩

theorem Adds.congr (hf : Adds P s f) (hP : P ↔ Q) (hs : s = u) : Adds Q u f := by
  rw [← propext hP, ← hs]
  exact hf

theorem Adds.foldlM {α : Type} {P : α → Prop} {s : α → Set Grant}
    {f : Grants → α → Except ConfigError Grants} {as : List α}
    (h : ∀ a ∈ as, Adds (P a) (s a) (f · a)) :
    Adds (∀ a ∈ as, P a) {x | ∃ a ∈ as, x ∈ s a} (as.foldlM f ·) := by
  induction as with
  | nil => exact Adds.pure.congr (by simp) (by simp)
  | cons a as ih =>
    obtain ⟨ha, has⟩ := List.forall_mem_cons.1 h
    simp only [List.foldlM_cons]
    refine (ha.bind (ih has)).congr List.forall_mem_cons.symm ?_
    ext x
    simp

end

theorem find?_withTable (t : Grants) (category : Category) (n : String) (v : Signature × String)
    (c : Category) (name : String) :
    ((t.withTable ((t.table category).insert n v) category).table c).find? name =
      if c = category ∧ name = n then some v else (t.table c).find? name := by
  by_cases hc : c = category
  · subst hc
    cases c <;> simp [withTable, table, NameMap.find?_insert]
  · cases c <;> cases category <;> simp_all [withTable, table]

theorem held_withTable (t : Grants) {category : Category} {n : String} (s : Signature)
    (source : String) (h : (t.table category).find? n = none) :
    (t.withTable ((t.table category).insert n (s, source)) category).held =
      t.held ∪ {⟨category, n, s⟩} := by
  ext ⟨c, name, s'⟩
  simp only [held, Set.mem_ofPred_eq, find?_withTable, Set.mem_union, Set.mem_singleton_iff,
    Grant.mk.injEq]
  by_cases hx : c = category ∧ name = n
  · obtain ⟨rfl, rfl⟩ := hx
    simp [h, eq_comm]
  · simp only [if_neg hx]
    refine (or_iff_left ?_).symm
    exact fun ⟨hc, hn, _⟩ => hx ⟨hc, hn⟩

theorem adds_grant (category : Category) (source : String) (d : Definition) :
    Adds True {d.grant category} (grant category source · d) := by
  intro t
  unfold grant
  dsimp only
  cases hfind : (t.table category).find? (fold d.name) with
  | none => exact ⟨trivial, t.held_withTable d.signature source hfind⟩
  | some e =>
    obtain ⟨s, first⟩ := e
    have hold : (⟨category, fold d.name, s⟩ : Grant) ∈ t.held := ⟨first, hfind⟩
    dsimp only
    split
    case isTrue h =>
      subst h
      exact ⟨trivial, (Set.union_eq_self_of_subset_right (Set.singleton_subset_iff.2 hold)).symm⟩
    case isFalse h =>
      intro _ hagreed
      exact h (hagreed _ (.inl hold) _ (.inr rfl) rfl rfl)

theorem adds_grants (category : Category) (source : String) (ds : List Definition) :
    Adds True {x | ∃ d ∈ ds, d.grant category = x} (ds.foldlM (grant category source) ·) := by
  refine (Adds.foldlM fun d _ => adds_grant category source d).congr (by simp) ?_
  ext x
  simp [eq_comm]

theorem adds_enable (r : Registry) (n : String) :
    Adds (∃ m, r.find? n = some m) {x | ∃ m, r.find? n = some m ∧ x ∈ m.grants}
      (enable r · n) := by
  cases hm : r.find? n with
  | none =>
    intro t
    simp only [enable, Registry.resolve, hm]
    exact fun ⟨_, h⟩ => absurd h nofun
  | some m =>
    have hadds := (adds_grants .pseudoClass m.name m.pseudoClasses).bind
      (adds_grants .pseudoElement m.name m.pseudoElements)
    have henable : (enable r · n) = fun t => m.pseudoClasses.foldlM (grant .pseudoClass m.name) t >>=
        (m.pseudoElements.foldlM (grant .pseudoElement m.name) ·) := by
      funext t
      simp only [enable, Registry.resolve, hm]
      rfl
    rw [henable]
    refine hadds.congr (by simp) (Set.ext fun x => ?_)
    obtain ⟨c, name, s⟩ := x
    cases c <;> simp [Module.grants, Module.definitions, Definition.grant]

theorem adds_define (d : Definitions) (category : Category) :
    Adds d.Unambiguous (d.grants category) (define d category) := by
  obtain ⟨ds, hds, hun, hmem⟩ | ⟨⟨e, he⟩, hun⟩ := d.signatures_cases category
  · have hdefine : define d category = (ds.foldlM (grant category Config.source) ·) := by
      funext t
      rw [define, hds]
      rfl
    rw [hdefine]
    exact (adds_grants category Config.source ds).congr (by simp [hun])
      (Definitions.grants_eq category hmem).symm
  · intro t
    rw [define, he]
    exact fun h => absurd h hun

def gather (c : Config) (r : Registry) (t : Grants) : Except ConfigError Grants := do
  let t ← c.modules.foldlM (enable r) t
  let t ← t.define c.switches.pseudoClasses.definitions .pseudoClass
  t.define c.switches.pseudoElements.definitions .pseudoElement

theorem adds_gather (c : Config) (r : Registry) :
    Adds ((∀ n ∈ c.modules, ∃ m, r.find? n = some m) ∧
        ∀ category, (c.switches.pseudo category).definitions.Unambiguous)
      (c.grants r) (gather c r) := by
  have hmodules := Adds.foldlM fun n (_ : n ∈ c.modules) => adds_enable r n
  have hclasses := adds_define c.switches.pseudoClasses.definitions .pseudoClass
  have helements := adds_define c.switches.pseudoElements.definitions .pseudoElement
  refine (hmodules.bind (hclasses.bind helements)).congr (and_congr_right fun _ => ?_)
    (Set.ext fun x => ?_)
  · exact ⟨fun h category => by cases category <;> simp [Switches.pseudo, h],
      fun h => ⟨h .pseudoClass, h .pseudoElement⟩⟩
  · obtain ⟨category, name, s⟩ := x
    cases category <;> simp [Config.grants, Definitions.grants, Switches.pseudo]

theorem mem_keys_table {t : Grants} {category : Category} {name : String} :
    name ∈ (t.table category).keys ↔ ∃ s, ⟨category, name, s⟩ ∈ t.held := by
  simp [NameMap.mem_keys_iff, held]

theorem checkDisjoint_eq_ok_iff {t : Grants} :
    t.checkDisjoint = .ok () ↔
      ∀ x ∈ t.held, ∀ y ∈ t.held, x.name = y.name → x.category = y.category := by
  have hkeys : t.checkDisjoint = .ok () ↔
      ∀ n ∈ (t.table .pseudoClass).keys, n ∉ (t.table .pseudoElement).keys := by
    rw [checkDisjoint]
    split
    case h_1 n h =>
      have hn := NameMap.contains_iff.1 (List.find?_some h)
      exact iff_of_false nofun fun hall => hall n (List.mem_of_find?_eq_some h) hn
    case h_2 h =>
      refine iff_of_true rfl fun n hn hn' => List.find?_eq_none.1 h n hn (NameMap.contains_iff.2 hn')
  rw [hkeys]
  simp only [mem_keys_table]
  constructor
  · rintro h ⟨c, n, s⟩ hx ⟨c', n', s'⟩ hy rfl
    cases c <;> cases c'
    · rfl
    · exact absurd ⟨s', hy⟩ (h n ⟨s, hx⟩)
    · exact absurd ⟨s, hx⟩ (h n ⟨s', hy⟩)
    · rfl
  · rintro h n ⟨s, hx⟩ ⟨s', hy⟩
    exact absurd (h _ hx _ hy rfl) nofun

def dialect (t : Grants) (s : Switches) : Dialect where
  pseudoClasses := t.pseudoClasses.map (·.1)
  pseudoElements := t.pseudoElements.map (·.1)
  pseudoClassPolicy := s.pseudoClasses.unknown
  pseudoElementPolicy := s.pseudoElements.unknown
  attributes := s.attributes
  combinators := s.combinators

theorem find?_known_dialect (t : Grants) (s : Switches) (category : Category) (name : String)
    (σ : Signature) :
    ((t.dialect s).known category).find? name = some σ ↔ ⟨category, name, σ⟩ ∈ t.held := by
  have hknown : (t.dialect s).known category = (t.table category).map (·.1) := by
    cases category <;> rfl
  rw [hknown, NameMap.find?_map]
  simp [held, Prod.exists, Option.map_eq_some_iff]

theorem unites_dialect {c : Config} {r : Registry} {t : Grants} (hheld : t.held = c.grants r)
    (hd : t.checkDisjoint = .ok ()) : (t.dialect c.switches).Unites c r := by
  have hfind (category : Category) (name : String) (σ : Signature) :=
    hheld ▸ t.find?_known_dialect c.switches category name σ
  refine ⟨fun category => ?_, fun category name s => ?_, fun category name s => hfind category _ s,
    fun n hn hn' => ?_, rfl, rfl, rfl, rfl⟩
  · exact ((t.dialect c.switches).known category).sorted.imp bytes_lt
  · rw [← NameMap.find?_eq_some_iff]
    exact hfind category name s
  · obtain ⟨s, hs⟩ := NameMap.mem_keys_iff.1 hn
    obtain ⟨s', hs'⟩ := NameMap.mem_keys_iff.1 hn'
    have hx := (t.find?_known_dialect c.switches .pseudoClass n s).1 hs
    have hy := (t.find?_known_dialect c.switches .pseudoElement n s').1 hs'
    exact absurd (checkDisjoint_eq_ok_iff.1 hd _ hx _ hy rfl) nofun

end Grants

theorem Dialect.Unites.unique {c : Config} {r : Registry} {d d' : Dialect} (h : d.Unites c r)
    (h' : d'.Unites c r) : d = d' := by
  have hknown (category : Category) : d.known category = d'.known category := by
    ext name s
    rw [NameMap.find?_eq_some_iff, NameMap.find?_eq_some_iff, h.known, h'.known]
  obtain ⟨_, _, _, _, _, _⟩ := d
  obtain ⟨_, _, _, _, _, _⟩ := d'
  obtain ⟨-, -, -, -, hc, he, ha, hk⟩ := h
  obtain ⟨-, -, -, -, hc', he', ha', hk'⟩ := h'
  rw [Dialect.mk.injEq]
  exact ⟨hknown .pseudoClass, hknown .pseudoElement, hc.trans hc'.symm, he.trans he'.symm,
    ha.trans ha'.symm, hk.trans hk'.symm⟩

namespace Config

theorem compile_eq (c : Config) (r : Registry) :
    c.compile r = (Grants.gather c r .empty >>= fun t =>
      t.checkDisjoint >>= fun _ => .ok (t.dialect c.switches)) := by
  simp only [compile, Grants.gather, bind_assoc]
  rfl

theorem compile_cases (c : Config) (r : Registry) :
    (∃ d, c.compile r = .ok d ∧ c.Coherent r ∧ d.Unites c r) ∨
    (∃ e, c.compile r = .error e) ∧ ¬ c.Coherent r := by
  have hadds := Grants.adds_gather c r .empty
  rw [compile_eq]
  cases hgather : Grants.gather c r .empty with
  | error e =>
    rw [hgather, Grants.Added, Grants.held_empty, Set.empty_union] at hadds
    exact .inr ⟨⟨e, rfl⟩, fun h => hadds ⟨h.resolved, h.unambiguous⟩ h.agreed⟩
  | ok t =>
    rw [hgather, Grants.Added, Grants.held_empty, Set.empty_union] at hadds
    obtain ⟨⟨hres, hun⟩, hheld⟩ := hadds
    cases hd : t.checkDisjoint with
    | error e =>
      refine .inr ⟨⟨e, by simp [bind, Except.bind, hd]⟩, fun h => ?_⟩
      have hok := Grants.checkDisjoint_eq_ok_iff.2 (hheld ▸ h.disjoint)
      exact absurd (hok.symm.trans hd) nofun
    | ok =>
      refine .inl ⟨t.dialect c.switches, by simp [bind, Except.bind, hd], ?_, ?_⟩
      · exact ⟨hres, hun, hheld ▸ t.agreed_held, hheld ▸ Grants.checkDisjoint_eq_ok_iff.1 hd⟩
      · exact Grants.unites_dialect hheld hd

/-- A configuration compiles just where nothing it grants disagrees, to the one dialect that knows
the union of what it grants. -/
theorem compile_iff_unites (c : Config) (r : Registry) :
    ((∃ d, c.compile r = .ok d) ↔ c.Coherent r) ∧
    ∀ d, c.compile r = .ok d ↔ c.Coherent r ∧ d.Unites c r := by
  obtain ⟨d, hd, hcoherent, hunites⟩ | ⟨⟨e, he⟩, hnot⟩ := c.compile_cases r
  · refine ⟨iff_of_true ⟨d, hd⟩ hcoherent, fun d' => ?_⟩
    rw [hd, Except.ok.injEq]
    exact ⟨fun h => h ▸ ⟨hcoherent, hunites⟩, fun h => hunites.unique h.2⟩
  · simp [he, hnot]

end Config

end CssSelector
