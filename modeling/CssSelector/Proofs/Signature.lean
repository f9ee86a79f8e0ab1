import CssSelector.Signature
import Mathlib

/-!
The signature of a name told by the grammars it is listed under: it may stand bare where one of them
is `noArgument` or none of them takes an argument, and its argument is the only other one there is.
Their order and how often each of them is listed do not matter, unless two of them disagree
(`ofGrammars_by_set`).
-/

set_option autoImplicit false

namespace CssSelector.Signature

variable {s σ : Signature} {gs : List ArgumentGrammar}

theorem allow_cases (s : Signature) (g : ArgumentGrammar) :
    (g = .noArgument ∧ s.allow g = .ok { s with bare := true }) ∨
    (g ≠ .noArgument ∧ s.argument = none ∧ s.allow g = .ok { s with argument := some g }) ∨
    (g ≠ .noArgument ∧ s.argument = some g ∧ s.allow g = .ok s) ∨
    (g ≠ .noArgument ∧ ∃ h, h ≠ g ∧ s.argument = some h ∧ s.allow g = .error (h, g)) := by
  by_cases hg : g = .noArgument
  · exact .inl ⟨hg, by simp [allow, hg]⟩
  cases harg : s.argument with
  | none => exact .inr (.inl ⟨hg, rfl, by simp [allow, hg, harg]⟩)
  | some h =>
    by_cases hh : h = g
    · exact .inr (.inr (.inl ⟨hg, by rw [hh], by simp [allow, hg, harg, hh]⟩))
    · exact .inr (.inr (.inr ⟨hg, h, hh, rfl, by simp [allow, hg, harg, hh]⟩))

theorem eq_iff :
    s = σ ↔ (s.bare = true ↔ σ.bare = true) ∧ ∀ g, s.argument = some g ↔ σ.argument = some g := by
  obtain ⟨b, a⟩ := s
  obtain ⟨b', a'⟩ := σ
  rw [mk.injEq, Bool.eq_iff_iff, Option.ext_iff]

theorem foldlM_allow_eq_ok_iff :
    gs.foldlM allow s = .ok σ ↔
      (σ.bare = true ↔ s.bare = true ∨ .noArgument ∈ gs) ∧
      ∀ g, σ.argument = some g ↔ s.argument = some g ∨ (g ≠ .noArgument ∧ g ∈ gs) := by
  induction gs generalizing s with
  | nil =>
    simp only [List.foldlM_nil, List.not_mem_nil, and_false, or_false]
    rw [show pure s = Except.ok (ε := ArgumentGrammar × ArgumentGrammar) s from rfl, Except.ok.injEq,
      eq_comm, eq_iff]
  | cons k gs ih =>
    rw [List.foldlM_cons]
    obtain ⟨rfl, hk⟩ | ⟨hne, harg, hk⟩ | ⟨hne, harg, hk⟩ | ⟨hne, h, hh, harg, hk⟩ := s.allow_cases k
    all_goals rw [hk]
    · refine (ih (s := { s with bare := true })).trans ?_
      grind
    · refine (ih (s := { s with argument := some k })).trans ?_
      grind
    · refine (ih (s := s)).trans ?_
      grind
    · refine iff_of_false nofun fun ⟨_, hσ⟩ => hh ?_
      have h₁ : σ.argument = some h := (hσ h).2 (.inl harg)
      have h₂ : σ.argument = some k := (hσ k).2 (.inr ⟨hne, List.mem_cons_self⟩)
      exact Option.some.inj (h₁.symm.trans h₂)

theorem ofGrammars_eq_ok_iff :
    ofGrammars gs = .ok σ ↔
      (σ.bare = true ↔ .noArgument ∈ gs ∨ σ.argument = none) ∧
      ∀ g, σ.argument = some g ↔ g ≠ .noArgument ∧ g ∈ gs := by
  have hfold (s : Signature) : gs.foldlM allow ⟨false, none⟩ = .ok s ↔
      (s.bare = true ↔ .noArgument ∈ gs) ∧
      ∀ g, s.argument = some g ↔ g ≠ .noArgument ∧ g ∈ gs := by
    simp [foldlM_allow_eq_ok_iff]
  rw [ofGrammars]
  constructor
  · intro h
    cases hs : gs.foldlM allow ⟨false, none⟩ with
    | error e => rw [hs] at h; cases h
    | ok s =>
      rw [hs] at h
      obtain rfl := Except.ok.inj h
      obtain ⟨hbare, harg⟩ := (hfold s).1 hs
      exact ⟨by simp [hbare], harg⟩
  · intro ⟨hbare, harg⟩
    have hs := (hfold ⟨decide (.noArgument ∈ gs), σ.argument⟩).2 ⟨by simp, harg⟩
    rw [hs]
    refine congrArg Except.ok (eq_iff.2 ⟨?_, fun g => .rfl⟩)
    simp [hbare]

theorem exists_ofGrammars_iff :
    (∃ σ, ofGrammars gs = .ok σ) ↔
      ∀ g ∈ gs, ∀ h ∈ gs, g ≠ .noArgument → h ≠ .noArgument → g = h := by
  simp only [ofGrammars_eq_ok_iff]
  constructor
  · intro ⟨σ, _, harg⟩ g hg h hh hgn hhn
    have hσ := (harg g).2 ⟨hgn, hg⟩
    exact Option.some.inj (hσ.symm.trans ((harg h).2 ⟨hhn, hh⟩))
  · intro hone
    refine ⟨⟨decide (.noArgument ∈ gs ∨ gs.find? (· ≠ .noArgument) = none),
      gs.find? (· ≠ .noArgument)⟩, by simp, fun g => ?_⟩
    constructor
    · intro h
      exact ⟨by simpa using List.find?_some h, List.mem_of_find?_eq_some h⟩
    · intro ⟨hgn, hg⟩
      cases hfind : gs.find? (· ≠ .noArgument) with
      | none => exact absurd hgn (by simpa using List.find?_eq_none.1 hfind g hg)
      | some h =>
        have hhn : h ≠ .noArgument := by simpa using List.find?_some hfind
        rw [hone h (List.mem_of_find?_eq_some hfind) g hg hhn hgn]

/-- Grammars disagree about the first two of them, apart from repetitions, that take an argument. -/
theorem foldlM_allow_eq_error_iff {f k : ArgumentGrammar} :
    gs.foldlM allow s = .error (f, k) ↔
      s.argument.or (gs.find? (· ≠ .noArgument)) = some f ∧
        gs.find? (fun g => g ≠ .noArgument ∧ g ≠ f) = some k := by
  induction gs generalizing s with
  | nil => simp [pure, Except.pure]
  | cons g gs ih =>
    rw [List.foldlM_cons]
    obtain ⟨rfl, hg⟩ | ⟨hne, harg, hg⟩ | ⟨hne, harg, hg⟩ | ⟨hne, h, hh, harg, hg⟩ := s.allow_cases g
    all_goals rw [hg]
    · refine (ih (s := { s with bare := true })).trans ?_
      simp
    · refine (ih (s := { s with argument := some g })).trans ?_
      simp +contextual [harg, hne, eq_comm (a := g)]
    · refine (ih (s := s)).trans ?_
      simp +contextual [harg, eq_comm (a := g)]
    · simp +contextual [harg, hne, bind, Except.bind, Ne.symm hh, eq_comm (a := h)]

theorem ofGrammars_eq_error_iff {f k : ArgumentGrammar} :
    ofGrammars gs = .error (f, k) ↔
      gs.find? (· ≠ .noArgument) = some f ∧
        gs.find? (fun g => g ≠ .noArgument ∧ g ≠ f) = some k := by
  have hfold : gs.foldlM allow ⟨false, none⟩ = .error (f, k) ↔ _ := foldlM_allow_eq_error_iff
  rw [Option.none_or] at hfold
  rw [← hfold, ofGrammars]
  cases gs.foldlM allow ⟨false, none⟩ with
  | error e => simp [bind, Except.bind]
  | ok s => simp [bind, Except.bind, pure, Except.pure]

/-! From a signature back to grammars. -/

section
variable {g : ArgumentGrammar}

structure Definable (s : Signature) : Prop where
  usable : s.bare = true ∨ s.argument ≠ none
  argument : s.argument ≠ some .noArgument

theorem definable_iff : s.Definable ↔ (s.bare = true ∨ s.argument ≠ none) ∧
    s.argument ≠ some .noArgument :=
  ⟨fun h => ⟨h.usable, h.argument⟩, fun h => ⟨h.1, h.2⟩⟩

instance (s : Signature) : Decidable s.Definable := decidable_of_iff _ definable_iff.symm

theorem mem_grammars : g ∈ s.grammars ↔ g = .noArgument ∧ s.bare = true ∨ s.argument = some g := by
  cases hb : s.bare <;> simp [grammars, hb]

theorem mem_grammars_of_ne (hg : g ≠ .noArgument) : g ∈ s.grammars ↔ s.argument = some g := by
  simp [mem_grammars, hg]

theorem Definable.noArgument_mem_grammars (h : s.Definable) :
    .noArgument ∈ s.grammars ↔ s.bare = true := by
  simp [mem_grammars, h.argument]

theorem Definable.grammars_ne_nil (h : s.Definable) : s.grammars ≠ [] := by
  rcases h.usable with hb | ha
  · exact List.ne_nil_of_mem (mem_grammars.2 (.inl ⟨rfl, hb⟩))
  · obtain ⟨g, hg⟩ := Option.ne_none_iff_exists'.1 ha
    exact List.ne_nil_of_mem (mem_grammars.2 (.inr hg))

theorem definable_of_ofGrammars (h : ofGrammars gs = .ok s) : s.Definable := by
  obtain ⟨hbare, harg⟩ := ofGrammars_eq_ok_iff.1 h
  constructor
  · by_cases ha : s.argument = none
    · exact .inl (hbare.2 (.inr ha))
    · exact .inr ha
  · exact fun ha => ((harg _).1 ha).1 rfl

theorem Definable.ofGrammars_grammars (h : s.Definable) : ofGrammars s.grammars = .ok s := by
  refine ofGrammars_eq_ok_iff.2 ⟨?_, fun g => ?_⟩
  · rw [h.noArgument_mem_grammars]
    exact ⟨.inl, fun hb => hb.elim id fun ha => h.usable.resolve_right (· ha)⟩
  · constructor
    · intro ha
      have hne : g ≠ .noArgument := fun hg => h.argument (hg ▸ ha)
      exact ⟨hne, (mem_grammars_of_ne hne).2 ha⟩
    · exact fun ⟨hne, hg⟩ => (mem_grammars_of_ne hne).1 hg

end

/-! Lists of grammars with the same members. -/

section
variable {g f k : ArgumentGrammar}

def argumentsOf (gs : List ArgumentGrammar) : Finset ArgumentGrammar :=
  gs.toFinset.erase .noArgument

theorem mem_argumentsOf : g ∈ argumentsOf gs ↔ g ≠ .noArgument ∧ g ∈ gs := by
  simp [argumentsOf]

theorem exists_ofGrammars_iff_card :
    (∃ σ, ofGrammars gs = .ok σ) ↔ (argumentsOf gs).card ≤ 1 := by
  rw [exists_ofGrammars_iff, Finset.card_le_one]
  simp only [mem_argumentsOf]
  exact ⟨fun h g hg k hk => h g hg.2 k hk.2 hg.1 hk.1,
    fun h g hg k hk hgn hkn => h g ⟨hgn, hg⟩ k ⟨hkn, hk⟩⟩

theorem argument_eq_none_iff (h : ofGrammars gs = .ok σ) :
    σ.argument = none ↔ argumentsOf gs = ∅ := by
  obtain ⟨-, harg⟩ := ofGrammars_eq_ok_iff.1 h
  simp only [Option.eq_none_iff_forall_ne_some, Finset.eq_empty_iff_forall_notMem, mem_argumentsOf,
    ne_eq, harg]

theorem ofGrammars_eq_ok_congr {hs : List ArgumentGrammar} (h : ∀ g, g ∈ hs ↔ g ∈ gs) :
    ofGrammars hs = .ok σ ↔ ofGrammars gs = .ok σ := by
  simp only [ofGrammars_eq_ok_iff, h]

/-- `f` is the first grammar of a list that takes an argument, and `k` is the first one behind it
that takes another argument. -/
inductive FirstClash : List ArgumentGrammar → ArgumentGrammar → ArgumentGrammar → Prop
  | mk {before between behind : List ArgumentGrammar} {f k : ArgumentGrammar} :
      (∀ g ∈ before, g = .noArgument) → f ≠ .noArgument →
      (∀ g ∈ between, g = .noArgument ∨ g = f) → k ≠ .noArgument → k ≠ f →
      FirstClash (before ++ f :: (between ++ k :: behind)) f k

theorem firstClash_iff : FirstClash gs f k ↔
    gs.find? (· ≠ .noArgument) = some f ∧
      gs.find? (fun g => g ≠ .noArgument ∧ g ≠ f) = some k := by
  constructor
  · rintro ⟨hbefore, hf, hbetween, hk, hkf⟩
    rename_i before between behind
    constructor
    · refine List.find?_eq_some_iff_append.2 ⟨by simpa using hf, before, _, rfl, ?_⟩
      simpa using hbefore
    · refine List.find?_eq_some_iff_append.2
        ⟨by simp [hk, hkf], before ++ f :: between, behind, by simp, ?_⟩
      simp only [List.mem_append, List.mem_cons]
      rintro g (hg | rfl | hg)
      · simp [hbefore g hg]
      · simp
      · rcases hbetween g hg with rfl | rfl <;> simp
  · intro ⟨hfirst, hsecond⟩
    obtain ⟨hf, before, rest, rfl, hbefore⟩ := List.find?_eq_some_iff_append.1 hfirst
    have hbefore' : ∀ g ∈ before, g = .noArgument := by simpa using hbefore
    have hnone : before.find? (fun g => g ≠ .noArgument ∧ g ≠ f) = none := by
      simpa using fun g hg hn => absurd (hbefore' g hg) hn
    rw [List.find?_append, hnone, Option.none_or, List.find?_cons_of_neg (by simp)] at hsecond
    obtain ⟨hk, between, behind, rfl, hbetween⟩ := List.find?_eq_some_iff_append.1 hsecond
    have hkf : k ≠ .noArgument ∧ k ≠ f := by simpa using hk
    refine .mk hbefore' (by simpa using hf) (fun g hg => ?_) hkf.1 hkf.2
    have hg := hbetween g hg
    by_cases hn : g = .noArgument
    · exact .inl hn
    · exact .inr (by simpa [hn] using hg)

/-- What grammars make up depends only on which of them there are. They make up a signature where at
most one of them takes an argument, and the grammars of that make it up again. If two of them
disagree, the error is the first of these and the first one behind it that differs. -/
theorem ofGrammars_by_set (gs : List ArgumentGrammar) :
    ((∃ σ, ofGrammars gs = .ok σ) ↔ (argumentsOf gs).card ≤ 1) ∧
    (∀ σ, ofGrammars gs = .ok σ →
      (σ.bare = true ↔ .noArgument ∈ gs ∨ argumentsOf gs = ∅) ∧
      (∀ g, σ.argument = some g ↔ g ∈ argumentsOf gs) ∧
      ofGrammars σ.grammars = .ok σ) ∧
    (∀ f k, ofGrammars gs = .error (f, k) ↔ FirstClash gs f k) ∧
    ∀ hs : List ArgumentGrammar, hs.toFinset = gs.toFinset →
      ∀ σ, ofGrammars hs = .ok σ ↔ ofGrammars gs = .ok σ := by
  refine ⟨exists_ofGrammars_iff_card, fun σ h => ?_, fun f k => ?_, fun hs h σ => ?_⟩
  · obtain ⟨hbare, harg⟩ := ofGrammars_eq_ok_iff.1 h
    refine ⟨?_, fun g => ?_, (definable_of_ofGrammars h).ofGrammars_grammars⟩
    · rw [hbare, argument_eq_none_iff h]
    · rw [harg, mem_argumentsOf]
  · rw [ofGrammars_eq_error_iff, firstClash_iff]
  · refine ofGrammars_eq_ok_congr fun g => ?_
    rw [← List.mem_toFinset, h, List.mem_toFinset]

example : ofGrammars [.selector, .noArgument, .selector] = .ok (optional .selector) ∧
    ofGrammars [.noArgument, .selector, .noArgument, .selector, .string, .formula] =
      .error (.selector, .string) := ⟨rfl, rfl⟩

end

end CssSelector.Signature
