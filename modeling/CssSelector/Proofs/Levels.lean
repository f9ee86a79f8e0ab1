import CssSelector.Proofs.Compile.Similar
import CssSelector.Proofs.Widen

set_option autoImplicit false

namespace CssSelector

open Text

def Module.names (m : Module) : List String :=
  (m.pseudoClasses ++ m.pseudoElements).map fun e => fold e.name

/-- Each definition of the first module is in the second, with its signature or a wider one. -/
def Module.Widens (m m' : Module) (wide : Category → String → Bool) : Prop :=
  ∀ category, ∀ e ∈ m.definitions category,
    ⟨e.name, e.signature.widen (wide category e.name)⟩ ∈ m'.definitions category

namespace Module
variable {m m' : Module} {wide : Category → String → Bool}

theorem eq_of_name (hm : m.names.Nodup) {category category' : Category} {e e' : Definition}
    (he : e ∈ m.definitions category) (he' : e' ∈ m.definitions category')
    (h : fold e.name = fold e'.name) : category = category' ∧ e = e' := by
  rw [names, List.map_append, List.nodup_append] at hm
  obtain ⟨hclasses, helements, hne⟩ := hm
  cases category <;> cases category'
  · exact ⟨rfl, List.inj_on_of_nodup_map hclasses he he' h⟩
  · exact absurd h (hne _ (List.mem_map_of_mem he) _ (List.mem_map_of_mem he'))
  · exact absurd h.symm (hne _ (List.mem_map_of_mem he') _ (List.mem_map_of_mem he))
  · exact ⟨rfl, List.inj_on_of_nodup_map helements he he' h⟩

theorem eq_of_mem_grants (hm : m.names.Nodup) {x y : Grant} (hx : x ∈ m.grants) (hy : y ∈ m.grants)
    (h : x.name = y.name) : x = y := by
  obtain ⟨category, _, _⟩ := x
  obtain ⟨category', _, _⟩ := y
  obtain ⟨e, he, hx⟩ := hx
  obtain ⟨e', he', hy⟩ := hy
  rw [← hx, ← hy] at h ⊢
  obtain ⟨rfl, rfl⟩ := eq_of_name hm he he' h
  rfl

theorem Widens.mem_grants (h : m.Widens m' wide)
    (hwide : ∀ category name, wide category (fold name) = wide category name) {x : Grant}
    (hx : x ∈ m.grants) :
    ⟨x.category, x.name, x.signature.widen (wide x.category x.name)⟩ ∈ m'.grants := by
  obtain ⟨category, _, _⟩ := x
  obtain ⟨e, he, hx⟩ := hx
  obtain ⟨-, rfl, rfl⟩ := Grant.mk.injEq .. ▸ hx
  refine ⟨_, h category e he, ?_⟩
  rw [Definition.grant, hwide]

end Module

namespace Config
variable {c c' : Config} {r : Registry} {d d' : Dialect} {wide : Category → String → Bool}

theorem extends_of_grants (hd : c.compile r = .ok d) (hd' : c'.compile r = .ok d')
    (hs : c'.switches = c.switches)
    (hwide : ∀ category name, wide category (fold name) = wide category name)
    (hg : ∀ x ∈ c.grants r,
      ⟨x.category, x.name, x.signature.widen (wide x.category x.name)⟩ ∈ c'.grants r) :
    d.Extends d' wide := by
  have hu := (coherent_of_compile hd).2
  have hu' := (coherent_of_compile hd').2
  refine ⟨fun category name σ h => ?_, ?_, ?_⟩
  · have hx := hg _ ((hu.found category name σ).1 h)
    rw [hwide] at hx
    exact (hu'.found category name _).2 hx
  · rw [hu.attributes, hu'.attributes, hs]
  · rw [hu.combinators, hu'.combinators, hs]

/-- The switches of a parser that refuses unknown names, and has no definitions of its own. -/
def strict (attributes : AttributeSwitches) (combinators : CombinatorSwitches) : Switches where
  pseudoClasses := { unknown := .reject }
  pseudoElements := { unknown := .reject }
  attributes := attributes
  combinators := combinators

theorem strict_of_compile (hd : c.compile r = .ok d)
    (hc : ∀ category, (c.switches.pseudo category).unknown = .reject) : d.Strict := by
  have hu := (coherent_of_compile hd).2
  intro category _
  cases category with
  | pseudoClass => exact hu.pseudoClassPolicy.trans (hc .pseudoClass)
  | pseudoElement => exact hu.pseudoElementPolicy.trans (hc .pseudoElement)

theorem grants_mono (hm : c.modules ⊆ c'.modules) (hs : c'.switches = c.switches) :
    c.grants r ⊆ c'.grants r := by
  rintro x (⟨n, hn, hx⟩ | hx)
  · exact .inl ⟨n, hm hn, hx⟩
  · exact .inr (hs ▸ hx)

/-- Modules are additive where unknown names are refused: with more of them every name stays known
with its signature, and every text that was accepted comes to the same tree and warnings. -/
theorem parse_of_more_modules (hm : c.modules ⊆ c'.modules) (hs : c'.switches = c.switches)
    (hc : ∀ category, (c.switches.pseudo category).unknown = .reject)
    (hd : c.compile r = .ok d) (hd' : c'.compile r = .ok d') :
    (∀ category, (d.known category).entries ⊆ (d'.known category).entries) ∧
    (∀ category name σ, d.signature? category name = some σ →
      d'.signature? category name = some σ) ∧
    ∀ text out, d.parse text = .ok out → d'.parse text = .ok out := by
  have hu := (coherent_of_compile hd).2
  have hu' := (coherent_of_compile hd').2
  have hg := grants_mono (r := r) hm hs
  have hextends : d.Extends d' fun _ _ => false :=
    extends_of_grants hd hd' hs (fun _ _ => rfl) fun x hx => by
      rw [Signature.widen_false]
      exact hg hx
  refine ⟨fun category e he => ?_, fun category name σ h => ?_, fun text out h => ?_⟩
  · exact (hu'.known category e.1 e.2).2 (hg ((hu.known category e.1 e.2).1 he))
  · exact (hextends.signature category name σ h).trans (congrArg some σ.widen_false)
  · have h' := Dialect.parse_widen hextends (strict_of_compile hd hc) h
    rwa [Selector.widen_none] at h'

theorem parse_host_of_more_modules :
    let c : Config := ⟨["css-scoping-1"], strict {} {}⟩
    let c' : Config := ⟨["css-pseudo-4", "css-scoping-1"], strict {} {}⟩
    let whole : Selector := ⟨[⟨[.pseudo .pseudoClass "host"
      (some (.selector ⟨[⟨[.className "a"]⟩]⟩))]⟩]⟩
    c.modules ⊆ c'.modules ∧ ∃ d d', c.compile .builtin = .ok d ∧ c'.compile .builtin = .ok d' ∧
      (∀ category, (d.known category).entries ⊆ (d'.known category).entries) ∧
      d.parse ":host(.a)" = .ok ⟨whole, []⟩ ∧ d'.parse ":host(.a)" = .ok ⟨whole, []⟩ := by
  intro c c' whole
  have hm : c.modules ⊆ c'.modules := by simp [c, c']
  have hrun : (c.compile .builtin).map (·.parse ":host(.a)") = .ok (.ok ⟨whole, []⟩) := by cbv
  have hrun' : (c'.compile .builtin).map (fun _ => ()) = .ok () := by cbv
  obtain ⟨d, hd, hread⟩ := exists_of_map_eq_ok hrun
  obtain ⟨d', hd', -⟩ := exists_of_map_eq_ok hrun'
  obtain ⟨hentries, -, hparse⟩ := parse_of_more_modules hm rfl
    (fun category => by cases category <;> rfl) hd hd'
  exact ⟨hm, d, d', hd, hd', hentries, hread, hparse _ _ hread⟩

def only (name : String) (attributes : AttributeSwitches) (combinators : CombinatorSwitches) :
    Config := ⟨[name], strict attributes combinators⟩

section
variable {name : String} {m : Module} (attributes : AttributeSwitches)
  (combinators : CombinatorSwitches)

theorem grants_only (hm : r.find? name = some m) :
    (only name attributes combinators).grants r = m.grants := by
  ext x
  refine (or_iff_left ?_).trans ?_
  · rintro ⟨-, ⟨g, n, hn, -⟩, -, -⟩
    cases hx : x.category <;> cases g <;> simp [hx, only, strict, Switches.pseudo,
      Definitions.names] at hn
  · simp [only, hm]

theorem coherent_only (hm : r.find? name = some m) (hnames : m.names.Nodup) :
    (only name attributes combinators).Coherent r where
  resolved n hn := ⟨m, List.mem_singleton.1 hn ▸ hm⟩
  unambiguous category n g _ hg := by
    obtain ⟨n, hn, -⟩ := hg
    cases category <;> cases g <;> simp [only, strict, Switches.pseudo, Definitions.names] at hn
  agreed := by
    rw [grants_only attributes combinators hm]
    exact fun x hx y hy _ h => congrArg _ (Module.eq_of_mem_grants hnames hx hy h)
  disjoint := by
    rw [grants_only attributes combinators hm]
    exact fun x hx y hy h => congrArg _ (Module.eq_of_mem_grants hnames hx hy h)

end

end Config

namespace Module

/-- The pseudo-classes that count children. -/
def countsChildren (category : Category) (name : String) : Bool :=
  category = .pseudoClass && (sameLetters name "nth-child" || sameLetters name "nth-last-child")

theorem countsChildren_fold (category : Category) (name : String) :
    countsChildren category (fold name) = countsChildren category name := by
  simp only [countsChildren, sameLetters, fold_fold]

theorem selectors3_widens : selectors3.Widens selectors4 countsChildren := by
  intro category
  cases category <;> decide

theorem nodup_names_selectors3 : selectors3.names.Nodup := by
  have hnames : selectors3.names =
      (selectors3.pseudoClasses ++ selectors3.pseudoElements).map (·.name) := by cbv
  rw [hnames]
  decide +kernel

theorem nodup_names_selectors4 : selectors4.names.Nodup := by
  have hnames : selectors4.names =
      (selectors4.pseudoClasses ++ selectors4.pseudoElements).map (·.name) := by cbv
  rw [hnames]
  decide +kernel

end Module

namespace Config

/-- The later level of selectors keeps what the earlier one accepts. In the tree the formulas of
names that count children are those that may have a clause, at every depth, and have none. -/
theorem parse_of_later_level (attributes : AttributeSwitches) (combinators : CombinatorSwitches) :
    ∃ d d', (only "selectors-3" attributes combinators).compile .builtin = .ok d ∧
      (only "selectors-4" attributes combinators).compile .builtin = .ok d' ∧
      ∀ text r, d.parse text = .ok r →
        d'.parse text = .ok ⟨r.selector.widen Module.countsChildren, r.warnings⟩ := by
  have hm : Registry.builtin.find? "selectors-3" = some .selectors3 := by cbv
  have hm' : Registry.builtin.find? "selectors-4" = some .selectors4 := by cbv
  obtain ⟨d, hd, -⟩ := compile_of_coherent
    (coherent_only attributes combinators hm Module.nodup_names_selectors3)
  obtain ⟨d', hd', -⟩ := compile_of_coherent
    (coherent_only attributes combinators hm' Module.nodup_names_selectors4)
  have hextends : d.Extends d' Module.countsChildren := by
    refine extends_of_grants hd hd' rfl Module.countsChildren_fold fun x hx => ?_
    rw [grants_only attributes combinators hm] at hx
    rw [grants_only attributes combinators hm']
    exact Module.selectors3_widens.mem_grants Module.countsChildren_fold hx
  have hstrict : d.Strict := strict_of_compile hd fun category => by cases category <;> rfl
  exact ⟨d, d', hd, hd', fun _ _ => Dialect.parse_widen hextends hstrict⟩

/-- Inside of another argument a name that counts children has its formula widened, and one that
counts elements of a type has it not. -/
theorem parse_not_of_later_level :
    let formulas (a : Argument) : Selector := ⟨[⟨[.pseudo .pseudoClass "NTH-child" (some a),
      .pseudo .pseudoClass "nth-of-type" (some (.formula ⟨2, 1⟩))]⟩]⟩
    let whole (a : Argument) : Selector :=
      ⟨[⟨[.pseudo .pseudoClass "not" (some (.selector (formulas a)))]⟩]⟩
    ∃ d d', (only "selectors-3" {} {}).compile .builtin = .ok d ∧
      (only "selectors-4" {} {}).compile .builtin = .ok d' ∧
      d.parse ":not(:NTH-child(odd):nth-of-type(odd))" = .ok ⟨whole (.formula ⟨2, 1⟩), []⟩ ∧
      d'.parse ":not(:NTH-child(odd):nth-of-type(odd))" =
        .ok ⟨whole (.formulaOfSelector ⟨2, 1⟩ none), []⟩ := by
  intro formulas whole
  obtain ⟨d, d', hd, hd', h⟩ := parse_of_later_level {} {}
  have hrun : ((only "selectors-3" {} {}).compile .builtin).map
      (·.parse ":not(:NTH-child(odd):nth-of-type(odd))") =
        .ok (.ok ⟨whole (.formula ⟨2, 1⟩), []⟩) := by cbv
  obtain ⟨_, hd₃, hread⟩ := exists_of_map_eq_ok hrun
  obtain rfl := Except.ok.inj (hd.symm.trans hd₃)
  have hwiden : (whole (.formula ⟨2, 1⟩)).widen Module.countsChildren =
      whole (.formulaOfSelector ⟨2, 1⟩ none) := rfl
  exact ⟨d, d', hd, hd', hread, hwiden ▸ h _ _ hread⟩

end Config
end CssSelector
