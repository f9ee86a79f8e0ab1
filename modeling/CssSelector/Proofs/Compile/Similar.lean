import CssSelector.Proofs.Compile

/-!
Configurations that list the same in another way. The names under a grammar may come in any order,
in any case of their letters and any number of times: the signatures made of them are the same, and
so is an error about them. The order and the repetition of modules do not matter to what compiles,
but may matter to which of several errors is found first (`Config.compile_of_similar`).
-/

set_option autoImplicit false

namespace CssSelector

open Text

namespace Signature

theorem allow_allow (s : Signature) (g : ArgumentGrammar) :
    (s.allow g >>= fun s' => s'.allow g) = s.allow g := by
  obtain ⟨rfl, h⟩ | ⟨hne, -, h⟩ | ⟨-, -, h⟩ | ⟨-, _, -, -, h⟩ := s.allow_cases g
  · rw [h]
    rfl
  · rw [h]
    simp [allow, hne, bind, Except.bind]
  · rw [h]
    exact h
  · rw [h]
    rfl

theorem foldlM_allow_replicate (s : Signature) (g : ArgumentGrammar) (k : Nat) :
    (List.replicate k g).foldlM allow s = if k = 0 then .ok s else s.allow g := by
  induction k generalizing s with
  | zero => rfl
  | succ k ih =>
    rw [List.replicate_succ, List.foldlM_cons, if_neg (Nat.succ_ne_zero k)]
    simp only [ih]
    by_cases hk : k = 0
    · simp only [if_pos hk]
      exact bind_pure (s.allow g)
    · simp only [if_neg hk]
      exact s.allow_allow g

/-- Of grammars in order only which ones there are is looked at, not how often. -/
theorem foldlM_allow_flatMap (count : ArgumentGrammar → Nat) (gs : List ArgumentGrammar)
    (s : Signature) :
    (gs.flatMap fun g => List.replicate (count g) g).foldlM allow s =
      (gs.filter fun g => count g ≠ 0).foldlM allow s := by
  induction gs generalizing s with
  | nil => rfl
  | cons g gs ih =>
    rw [List.flatMap_cons, List.foldlM_append, foldlM_allow_replicate, List.filter_cons]
    by_cases hg : count g = 0
    · simpa [hg, bind, Except.bind] using ih s
    · simp only [if_neg hg, ih]
      simp [hg]

end Signature

namespace Definitions
variable {d d' : Definitions} {name : String} {s : Signature}

def SameNames (d d' : Definitions) : Prop := ∀ g name, d.Lists g name ↔ d'.Lists g name

theorem SameNames.symm (h : d.SameNames d') : d'.SameNames d := fun g name => (h g name).symm

def count (d : Definitions) (name : String) (g : ArgumentGrammar) : Nat :=
  (d.names g).countP fun n => fold n = name

theorem count_ne_zero_iff {g : ArgumentGrammar} : d.count name g ≠ 0 ↔ d.Lists g name := by
  simp [count, Lists]

theorem grammarsOf_entries (d : Definitions) (name : String) :
    grammarsOf name d.entries =
      ArgumentGrammar.all.flatMap fun g => List.replicate (d.count name g) g := by
  rw [grammarsOf, entries, List.filter_flatMap, List.map_flatMap]
  congr 1
  funext g
  rw [List.filter_map, List.map_map, count, List.countP_eq_length_filter]
  exact List.map_const'

theorem ofGrammars_congr (h : d.SameNames d') (name : String) :
    Signature.ofGrammars (grammarsOf name d.entries) =
      Signature.ofGrammars (grammarsOf name d'.entries) := by
  have hfilter : (ArgumentGrammar.all.filter fun g => d.count name g ≠ 0) =
      ArgumentGrammar.all.filter fun g => d'.count name g ≠ 0 :=
    List.filter_congr fun g _ =>
      decide_eq_decide.2 (count_ne_zero_iff.trans ((h g name).trans count_ne_zero_iff.symm))
  rw [Signature.ofGrammars, Signature.ofGrammars, grammarsOf_entries, grammarsOf_entries,
    Signature.foldlM_allow_flatMap, Signature.foldlM_allow_flatMap, hfilter]

theorem map_grouped_congr (h : d.SameNames d') :
    d.grouped.map Signature.ofGrammars = d'.grouped.map Signature.ofGrammars := by
  have hfind (d : Definitions) (n : String) (x) :
      (d.grouped.map Signature.ofGrammars).find? n = some x ↔
        (∃ g, d.Lists g n) ∧ Signature.ofGrammars (grammarsOf n d.entries) = x := by
    rw [NameMap.find?_map, Option.map_eq_some_iff, ← grammarsOf_ne_nil_iff]
    simp [NameMap.find?_eq_some_iff, mem_grouped, and_assoc]
  ext n x
  rw [hfind, hfind, ofGrammars_congr h]
  exact and_congr_left' (exists_congr fun g => h g n)

def ofOutcome (category : Category)
    (e : String × Except (ArgumentGrammar × ArgumentGrammar) Signature) :
    Except ConfigError Definition :=
  match e.2 with
  | .ok s => .ok ⟨e.1, s⟩
  | .error (first, second) => .error (.ambiguousDefinition category e.1 first second)

theorem signatures_congr (h : d.SameNames d') (category : Category) :
    d.signatures category = d'.signatures category := by
  have hmap (d : Definitions) : d.signatures category =
      (d.grouped.map Signature.ofGrammars).entries.mapM (ofOutcome category) := by
    rw [NameMap.map, List.mapM_map]
    rfl
  rw [hmap, hmap, map_grouped_congr h]

theorem Unambiguous.congr (h : d.SameNames d') (hd : d.Unambiguous) : d'.Unambiguous :=
  fun name g k hg hk => hd name g k ((h g name).2 hg) ((h k name).2 hk)

theorem Grants.congr (h : d.SameNames d') (hd : d.Grants name s) : d'.Grants name s where
  listed := hd.listed.imp fun g => (h g name).1
  bare := hd.bare.trans (h _ name)
  argument g := (hd.argument g).trans (and_congr_right fun _ => h g name)

theorem grants_congr (h : d.SameNames d') (category : Category) :
    d.grants category = d'.grants category :=
  Set.ext fun _ => and_congr_right fun _ => ⟨.congr h, .congr h.symm⟩

end Definitions

namespace Config
variable {c c' : Config} {r : Registry} {d : Dialect}

/-- The policies and all other switches are the same, and so are the names that are defined. -/
structure Similar (c c' : Config) : Prop where
  unknown : ∀ category,
    (c.switches.pseudo category).unknown = (c'.switches.pseudo category).unknown
  definitions : ∀ category,
    (c.switches.pseudo category).definitions.SameNames (c'.switches.pseudo category).definitions
  attributes : c.switches.attributes = c'.switches.attributes
  combinators : c.switches.combinators = c'.switches.combinators

theorem Similar.symm (h : c.Similar c') : c'.Similar c :=
  ⟨fun category => (h.unknown category).symm, fun category => (h.definitions category).symm,
    h.attributes.symm, h.combinators.symm⟩

theorem dialect_congr (h : c.Similar c') (t : Grants) :
    t.dialect c.switches = t.dialect c'.switches := by
  rw [Grants.dialect, Grants.dialect, h.attributes, h.combinators]
  congr 1
  · exact h.unknown .pseudoClass
  · exact h.unknown .pseudoElement

theorem define_congr (h : c.Similar c') (category : Category) (t : Grants) :
    t.define (c.switches.pseudo category).definitions category =
      t.define (c'.switches.pseudo category).definitions category := by
  rw [Grants.define, Grants.define, Definitions.signatures_congr (h.definitions category)]

theorem gather_congr (h : c.Similar c') (hm : c.modules = c'.modules) (t : Grants) :
    Grants.gather c r t = Grants.gather c' r t := by
  have hclasses := define_congr h .pseudoClass
  have helements := define_congr h .pseudoElement
  simp only [Switches.pseudo] at hclasses helements
  simp only [Grants.gather, hm, hclasses, helements]

theorem grants_congr (h : c.Similar c') (hm : ∀ n, n ∈ c.modules ↔ n ∈ c'.modules) :
    c.grants r = c'.grants r := by
  ext x
  have hd := Definitions.grants_congr (h.definitions x.category) x.category
  simp only [grants, Set.mem_ofPred_eq, hm, hd]

theorem Coherent.congr (h : c.Similar c') (hm : ∀ n, n ∈ c.modules ↔ n ∈ c'.modules)
    (hc : c.Coherent r) : c'.Coherent r where
  resolved n hn := hc.resolved n ((hm n).2 hn)
  unambiguous category := .congr (h.definitions category) (hc.unambiguous category)
  agreed := grants_congr h hm ▸ hc.agreed
  disjoint := grants_congr h hm ▸ hc.disjoint

theorem unites_congr (h : c.Similar c') (hm : ∀ n, n ∈ c.modules ↔ n ∈ c'.modules)
    (hd : d.Unites c r) : d.Unites c' r where
  sorted := hd.sorted
  known category name s := grants_congr h hm ▸ hd.known category name s
  found category name s := grants_congr h hm ▸ hd.found category name s
  disjoint := hd.disjoint
  pseudoClassPolicy := hd.pseudoClassPolicy.trans (h.unknown .pseudoClass)
  pseudoElementPolicy := hd.pseudoElementPolicy.trans (h.unknown .pseudoElement)
  attributes := hd.attributes.trans h.attributes
  combinators := hd.combinators.trans h.combinators

theorem coherent_of_compile (h : c.compile r = .ok d) : c.Coherent r ∧ d.Unites c r := by
  obtain ⟨d', hd, hc, hu⟩ | ⟨⟨e, he⟩, -⟩ := c.compile_cases r
  · obtain rfl := Except.ok.inj (hd.symm.trans h)
    exact ⟨hc, hu⟩
  · exact absurd (he.symm.trans h) nofun

theorem compile_of_coherent (h : c.Coherent r) : ∃ d, c.compile r = .ok d ∧ d.Unites c r := by
  obtain ⟨d, hd, -, hu⟩ | ⟨-, hnot⟩ := c.compile_cases r
  · exact ⟨d, hd, hu⟩
  · exact absurd h hnot

theorem compile_congr (h : c.Similar c') (hm : ∀ n, n ∈ c.modules ↔ n ∈ c'.modules)
    (hd : c.compile r = .ok d) : c'.compile r = .ok d := by
  obtain ⟨hc, hu⟩ := coherent_of_compile hd
  obtain ⟨d', hd', hu'⟩ := compile_of_coherent (hc.congr h hm)
  rw [hd', (unites_congr h hm hu).unique hu']

/-- Similar configurations compile alike, errors included, if they list their modules alike. If they
list the same modules in any way they compile to the same dialects. -/
theorem compile_of_similar (r : Registry) (h : c.Similar c') :
    (c.modules = c'.modules → c.compile r = c'.compile r) ∧
    ((∀ n, n ∈ c.modules ↔ n ∈ c'.modules) →
      ((∃ d, c.compile r = .ok d) ↔ ∃ d, c'.compile r = .ok d) ∧
        ∀ d d', c.compile r = .ok d → c'.compile r = .ok d' → d = d') := by
  constructor
  · intro hm
    rw [compile_eq, compile_eq, gather_congr h hm]
    simp only [dialect_congr h]
  · intro hm
    have hm' (n : String) := (hm n).symm
    refine ⟨⟨fun ⟨d, hd⟩ => ⟨d, compile_congr h hm hd⟩,
      fun ⟨d, hd⟩ => ⟨d, compile_congr h.symm hm' hd⟩⟩, fun d d' hd hd' => ?_⟩
    exact Except.ok.inj ((compile_congr h hm hd).symm.trans hd')

theorem compile_of_relisted :
    let s (names : List String) : Switches :=
      { pseudoClasses := { unknown := .reject, definitions := { selector := names } } }
    let c : Config := ⟨["css-pseudo-4", "selectors-4"], s ["Toggle", "Is", "toggle"]⟩
    let c' : Config := ⟨["selectors-4", "css-pseudo-4", "selectors-4"], s ["IS", "TOGGLE"]⟩
    c.Similar c' ∧ (∀ n, n ∈ c.modules ↔ n ∈ c'.modules) ∧
      ((∃ d, c.compile .builtin = .ok d) ↔ ∃ d, c'.compile .builtin = .ok d) ∧
      ∀ d d', c.compile .builtin = .ok d → c'.compile .builtin = .ok d' → d = d' := by
  intro s c c'
  have hnames : (s ["Toggle", "Is", "toggle"]).pseudoClasses.definitions.SameNames
      (s ["IS", "TOGGLE"]).pseudoClasses.definitions := by
    have hfold : fold "Toggle" = "toggle" ∧ fold "toggle" = "toggle" ∧ fold "TOGGLE" = "toggle" ∧
        fold "Is" = "is" ∧ fold "IS" = "is" := by decide
    intro g name
    cases g with
    | selector =>
      simp only [s, Definitions.Lists, Definitions.names, List.mem_cons, List.not_mem_nil, or_false,
        exists_eq_or_imp, exists_eq_left, hfold]
      tauto
    | _ => exact .rfl
  have hdefinitions (category : Category) :
      (c.switches.pseudo category).definitions.SameNames
        (c'.switches.pseudo category).definitions := by
    cases category with
    | pseudoClass => exact hnames
    | pseudoElement => exact fun _ _ => .rfl
  have hsimilar : c.Similar c' :=
    ⟨fun category => by cases category <;> rfl, hdefinitions, rfl, rfl⟩
  have hmodules (n : String) : n ∈ c.modules ↔ n ∈ c'.modules := by
    simp only [c, c', List.mem_cons, List.not_mem_nil, or_false]
    tauto
  exact ⟨hsimilar, hmodules, (compile_of_similar .builtin hsimilar).2 hmodules⟩

end Config
end CssSelector
