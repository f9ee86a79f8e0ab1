import CssSelector.Dialect.Compile
import CssSelector.Proofs.NameMap
import CssSelector.Proofs.Signature

set_option autoImplicit false

namespace CssSelector

open Text

namespace Definitions
variable {d : Definitions} {name : String} {g : ArgumentGrammar} {s : Signature}

def Lists (d : Definitions) (g : ArgumentGrammar) (name : String) : Prop :=
  ∃ n ∈ d.names g, fold n = name

/-- No name is listed under two grammars that take an argument. -/
def Unambiguous (d : Definitions) : Prop :=
  ∀ name g h, d.Lists g name → d.Lists h name → g ≠ .noArgument → h ≠ .noArgument → g = h

/-- A listed name is granted bare if it is listed under `noArgument`, and with the argument of the
other grammar it is listed under. -/
structure Grants (d : Definitions) (name : String) (s : Signature) : Prop where
  listed : ∃ g, d.Lists g name
  bare : s.bare = true ↔ d.Lists .noArgument name
  argument : ∀ g, s.argument = some g ↔ g ≠ .noArgument ∧ d.Lists g name

theorem mem_entries : (g, name) ∈ d.entries ↔ name ∈ d.names g := by
  simp only [entries, List.mem_flatMap, List.mem_map, Prod.mk.injEq]
  constructor
  · rintro ⟨_, _, _, hmem, rfl, rfl⟩
    exact hmem
  · intro hmem
    exact ⟨g, by cases g <;> simp [ArgumentGrammar.all], name, hmem, rfl, rfl⟩

def grammarsOf (name : String) (es : List (ArgumentGrammar × String)) : List ArgumentGrammar :=
  (es.filter fun e => fold e.2 = name).map (·.1)

theorem mem_grammarsOf : g ∈ grammarsOf name d.entries ↔ d.Lists g name := by
  simp [grammarsOf, mem_entries, Lists]

theorem grammarsOf_ne_nil_iff :
    grammarsOf name d.entries ≠ [] ↔ ∃ g, d.Lists g name := by
  simp only [← mem_grammarsOf]
  exact ⟨List.exists_mem_of_ne_nil _, fun ⟨_, hg⟩ => List.ne_nil_of_mem hg⟩

theorem grammarsOf_cons (e : ArgumentGrammar × String) (es : List (ArgumentGrammar × String)) :
    grammarsOf name (e :: es) =
      if fold e.2 = name then e.1 :: grammarsOf name es else grammarsOf name es := by
  simp only [grammarsOf, List.filter_cons, decide_eq_true_eq]
  split <;> rfl

def group (m : NameMap (List ArgumentGrammar)) (e : ArgumentGrammar × String) :
    NameMap (List ArgumentGrammar) :=
  m.insert (fold e.2) ((m.find? (fold e.2)).getD [] ++ [e.1])

theorem find?_foldl_group (m : NameMap (List ArgumentGrammar))
    (es : List (ArgumentGrammar × String)) (name : String) :
    (es.foldl group m).find? name =
      if grammarsOf name es = [] then m.find? name
      else some ((m.find? name).getD [] ++ grammarsOf name es) := by
  induction es generalizing m with
  | nil => rfl
  | cons e es ih =>
    rw [List.foldl_cons, ih, group, NameMap.find?_insert, grammarsOf_cons]
    by_cases he : fold e.2 = name
    · subst he
      rw [if_pos rfl, if_pos rfl, if_neg (List.cons_ne_nil _ _)]
      split
      case isTrue h => rw [h]
      case isFalse => rw [Option.getD_some, List.append_assoc, List.singleton_append]
    · rw [if_neg he, if_neg (Ne.symm he)]

theorem mem_grouped {gs : List ArgumentGrammar} :
    (name, gs) ∈ d.grouped.entries ↔ gs = grammarsOf name d.entries ∧ gs ≠ [] := by
  have hfind : d.grouped.find? name =
      if grammarsOf name d.entries = [] then none else some (grammarsOf name d.entries) :=
    find?_foldl_group .empty d.entries name
  rw [← NameMap.find?_eq_some_iff, hfind]
  split
  case isTrue h => simp +contextual [h]
  case isFalse h =>
    rw [Option.some.injEq]
    exact ⟨fun he => ⟨he.symm, he ▸ h⟩, fun he => he.1.symm⟩

theorem ofGrammars_grammarsOf (hl : ∃ g, d.Lists g name) :
    Signature.ofGrammars (grammarsOf name d.entries) = .ok s ↔ d.Grants name s := by
  simp only [Signature.ofGrammars_eq_ok_iff, mem_grammarsOf]
  -- a listed name that takes no argument is listed under `noArgument`
  have hbare (harg : ∀ g, s.argument = some g ↔ g ≠ .noArgument ∧ d.Lists g name) :
      d.Lists .noArgument name ∨ s.argument = none ↔ d.Lists .noArgument name := by
    refine or_iff_left_of_imp fun hnone => ?_
    obtain ⟨g, hg⟩ := hl
    by_cases h : g = .noArgument
    · exact h ▸ hg
    · exact absurd (hnone.symm.trans ((harg g).2 ⟨h, hg⟩)) nofun
  constructor
  · intro ⟨hb, harg⟩
    exact ⟨hl, hb.trans (hbare harg), harg⟩
  · intro h
    exact ⟨h.bare.trans (hbare h.argument).symm, h.argument⟩

theorem exists_grouped_iff (name : String) :
    (∃ gs, (name, gs) ∈ d.grouped.entries) ↔ ∃ g, d.Lists g name := by
  simp only [mem_grouped, exists_eq_left, grammarsOf_ne_nil_iff]

theorem unambiguous_iff :
    d.Unambiguous ↔ ∀ e ∈ d.grouped.entries, ∃ s, Signature.ofGrammars e.2 = .ok s := by
  simp only [Signature.exists_ofGrammars_iff]
  constructor
  · rintro h ⟨name, gs⟩ he g hg k hk
    obtain ⟨rfl, _⟩ := mem_grouped.1 he
    exact h name g k (mem_grammarsOf.1 hg) (mem_grammarsOf.1 hk)
  · intro h name g k hg hk
    obtain ⟨gs, he⟩ := (exists_grouped_iff name).2 ⟨g, hg⟩
    obtain ⟨rfl, _⟩ := mem_grouped.1 he
    exact h _ he g (mem_grammarsOf.2 hg) k (mem_grammarsOf.2 hk)

end Definitions

theorem exists_of_map_eq_ok {α β ε : Type} {f : α → β} {x : Except ε α} {b : β}
    (h : x.map f = .ok b) : ∃ a, x = .ok a ∧ f a = b := by
  cases x with
  | error => exact absurd h nofun
  | ok a => exact ⟨a, rfl, Except.ok.inj h⟩

theorem mapM_cases {α β ε : Type} (f : α → Except ε β) (xs : List α) :
    (∃ ys, xs.mapM f = .ok ys ∧ (∀ x ∈ xs, ∃ y, f x = .ok y) ∧
      ∀ y, y ∈ ys ↔ ∃ x ∈ xs, f x = .ok y) ∨
    ∃ e, xs.mapM f = .error e ∧ ∃ x ∈ xs, f x = .error e := by
  induction xs with
  | nil => exact .inl ⟨[], by simp [pure, Except.pure]⟩
  | cons x xs ih =>
    rw [List.mapM_cons]
    cases hx : f x with
    | error e => exact .inr ⟨e, rfl, x, List.mem_cons_self, hx⟩
    | ok y =>
      obtain ⟨ys, hys, hall, hmem⟩ | ⟨e, he, z, hz, hf⟩ := ih
      · rw [hys]
        refine .inl ⟨y :: ys, rfl, ?_, fun z => ?_⟩
        · exact List.forall_mem_cons.2 ⟨⟨y, hx⟩, hall⟩
        · simp [hmem, hx, eq_comm]
      · rw [he]
        exact .inr ⟨e, rfl, z, List.mem_cons_of_mem x hz, hf⟩

namespace Definitions
variable {d : Definitions} {name : String} {s : Signature} {category : Category}

def ofGroup (category : Category) (e : String × List ArgumentGrammar) :
    Except ConfigError Definition :=
  match Signature.ofGrammars e.2 with
  | .ok s => .ok ⟨e.1, s⟩
  | .error (first, second) => .error (.ambiguousDefinition category e.1 first second)

theorem ofGroup_eq_ok_iff {e : String × List ArgumentGrammar} {x : Definition} :
    ofGroup category e = .ok x ↔ e.1 = x.name ∧ Signature.ofGrammars e.2 = .ok x.signature := by
  obtain ⟨n, s⟩ := x
  rw [ofGroup]
  split
  case h_1 s' h => simp [h]
  case h_2 h => simp [h]

theorem signatures_cases (d : Definitions) (category : Category) :
    (∃ ds, d.signatures category = .ok ds ∧ d.Unambiguous ∧
      ∀ x, x ∈ ds ↔ d.Grants x.name x.signature) ∨
    (∃ e, d.signatures category = .error e) ∧ ¬ d.Unambiguous := by
  obtain ⟨ds, hds, hall, hmem⟩ | ⟨e, he, x, hx, hf⟩ :=
    mapM_cases (ofGroup category) d.grouped.entries
  · refine .inl ⟨ds, hds, unambiguous_iff.2 fun e he => ?_, fun x => ?_⟩
    · obtain ⟨x, hx⟩ := hall e he
      exact ⟨x.signature, (ofGroup_eq_ok_iff.1 hx).2⟩
    · rw [hmem]
      constructor
      · rintro ⟨⟨name, gs⟩, he, hx⟩
        obtain ⟨rfl, hs⟩ := ofGroup_eq_ok_iff.1 hx
        have hl := (exists_grouped_iff x.name).1 ⟨gs, he⟩
        obtain ⟨rfl, _⟩ := mem_grouped.1 he
        exact (ofGrammars_grammarsOf hl).1 hs
      · intro h
        obtain ⟨gs, he⟩ := (exists_grouped_iff x.name).2 h.listed
        have hs := (ofGrammars_grammarsOf h.listed).2 h
        rw [← (mem_grouped.1 he).1] at hs
        exact ⟨(x.name, gs), he, ofGroup_eq_ok_iff.2 ⟨rfl, hs⟩⟩
  · refine .inr ⟨⟨e, he⟩, fun h => ?_⟩
    obtain ⟨s, hs⟩ := unambiguous_iff.1 h x hx
    have hok : ofGroup category x = .ok ⟨x.1, s⟩ := ofGroup_eq_ok_iff.2 ⟨rfl, hs⟩
    exact absurd (hok.symm.trans hf) nofun

theorem Grants.fold_eq (h : d.Grants name s) : fold name = name := by
  obtain ⟨_, n, _, rfl⟩ := h.listed
  exact fold_fold n

end Definitions
end CssSelector
