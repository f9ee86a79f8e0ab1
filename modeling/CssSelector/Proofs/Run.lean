import CssSelector.Parse.Selector
import CssSelector.Proofs.Mention

set_option autoImplicit false

namespace CssSelector.Parse

def Spaces (ts : List Token) : Prop := ∀ t ∈ ts, t.kind = .whitespace

namespace Spaces
variable {t : Token} {ts us : List Token}

@[simp] theorem nil : Spaces [] := by simp [Spaces]

@[simp] theorem cons_iff : Spaces (t :: ts) ↔ t.kind = .whitespace ∧ Spaces ts := by
  simp [Spaces]

@[simp] theorem append_iff : Spaces (ts ++ us) ↔ Spaces ts ∧ Spaces us := by
  induction ts with
  | nil => simp
  | cons t ts ih => simp [ih, and_assoc]

theorem takeWhile (ts : List Token) : Spaces (ts.takeWhile Token.isSpace) := by
  intro t ht
  have h := List.all_takeWhile (p := Token.isSpace) (l := ts)
  simpa [Token.isSpace] using List.all_eq_true.1 h t ht

theorem dropWhile_append (h : Spaces ts) (us : List Token) :
    (ts ++ us).dropWhile Token.isSpace = us.dropWhile Token.isSpace := by
  induction ts with
  | nil => rfl
  | cons t ts ih =>
    obtain ⟨ht, hts⟩ := cons_iff.1 h
    simp [Token.isSpace, ht]
    simpa [Token.isSpace] using ih hts

end Spaces

theorem dropWhile_isSpace_of_head {ts : List Token} (h : ∀ t ∈ ts.head?, t.kind ≠ .whitespace) :
    ts.dropWhile Token.isSpace = ts := by
  cases ts with
  | nil => rfl
  | cons t ts =>
    have ht : t.isSpace = false := by simpa [Token.isSpace] using h t rfl
    simp [ht]

@[simp] theorem Context.front_cons (c : Context) (t : Token) (ts : List Token) :
    c.front (t :: ts) = t := rfl

@[simp] theorem Context.kind_front_nil (c : Context) : (c.front []).kind = .endOfInput := rfl

namespace Parser
variable {α β : Type} {c : Context} {ts us : List Token} {ws : List Warning} {b : β}

@[simp] theorem run_bind_front (f : Token → Parser β) (c : Context) (ts : List Token) :
    (front >>= f).run c ts = (f (c.front ts)).run c ts := rfl

@[simp] theorem run_bind_ahead (f : List Token → Parser β) (c : Context) (ts : List Token) :
    (ahead >>= f).run c ts = (f ts).run c ts := rfl

@[simp] theorem run_bind_context (f : Context → Parser β) (c : Context) (ts : List Token) :
    (context >>= f).run c ts = (f c).run c ts := rfl

@[simp] theorem run_bind_skip (n : Nat) (f : Unit → Parser β) (c : Context) (ts : List Token) :
    (skip n >>= f).run c ts = (f ()).run c (ts.drop n) := rfl

@[simp] theorem run_bind_skipSpace (f : Unit → Parser β) (c : Context) (ts : List Token) :
    (skipSpace >>= f).run c ts = (f ()).run c (ts.dropWhile Token.isSpace) := rfl

theorem discard_bind (p : Parser α) (f : Unit → Parser β) :
    (discard p >>= f) = p >>= fun _ => f () := by
  rw [Functor.discard, map_const, Function.comp_apply, bind_map_left]

theorem run_bind_of_ok {p : Parser α} {f : α → Parser β} {a : α} {us vs : List Token}
    {ws₁ ws₂ : List Warning} (h : p.run c ts = ⟨.ok a, ws₁, us⟩)
    (k : (f a).run c us = ⟨.ok b, ws₂, vs⟩) : (p >>= f).run c ts = ⟨.ok b, ws₁ ++ ws₂, vs⟩ :=
  run_bind_eq_ok.2 ⟨a, ws₁, us, ws₂, h, k, rfl⟩

theorem run_bind_ok {p : Parser α} {f : α → Parser β} {a : α}
    (h : p.run c ts = ⟨.ok a, ws, us⟩) : (p >>= f).run c ts =
      ⟨((f a).run c us).result, ws ++ ((f a).run c us).warnings, ((f a).run c us).rest⟩ := by
  rw [run_bind, h]

theorem run_bind_error {p : Parser α} {e : ParseError} (h : p.run c ts = ⟨.error e, ws, us⟩)
    (f : α → Parser β) : (p >>= f).run c ts = ⟨.error e, ws, us⟩ := by
  rw [run_bind, h]

theorem result_bind_error {p : Parser α} {e : ParseError} (h : (p.run c ts).result = .error e)
    (f : α → Parser β) : ((p >>= f).run c ts).result = .error e := by
  rcases hr : p.run c ts with ⟨e' | a, ws, us⟩
  · rw [hr] at h
    cases h
    rw [run_bind_error hr]
  · rw [hr] at h
    cases h

theorem run_return_of_ok {p : Parser α} {f : α → β} {a : α} (h : p.run c ts = ⟨.ok a, ws, us⟩) :
    (do return f (← p) : Parser β).run c ts = ⟨.ok (f a), ws, us⟩ := by
  rw [← List.append_nil ws]
  exact run_bind_of_ok h rfl

theorem run_bind_skipSpace_append {f : Unit → Parser β} {s vs : List Token} (hs : Spaces s)
    (hv : ∀ t ∈ vs.head?, t.kind ≠ .whitespace) :
    (skipSpace >>= f).run c (s ++ vs) = (f ()).run c vs := by
  rw [run_bind_skipSpace, hs.dropWhile_append, dropWhile_isSpace_of_head hv]

theorem exists_of_run_bind_skipSpace {f : Unit → Parser β}
    (h : (skipSpace >>= f).run c ts = ⟨.ok b, ws, us⟩) :
    ∃ s vs, ts = s ++ vs ∧ Spaces s ∧ (∀ t ∈ vs.head?, t.kind ≠ .whitespace) ∧
      (f ()).run c vs = ⟨.ok b, ws, us⟩ := by
  refine ⟨_, _, List.takeWhile_append_dropWhile.symm, Spaces.takeWhile ts, fun t ht => ?_, h⟩
  have hn := List.head?_dropWhile_not Token.isSpace ts
  rw [Option.mem_def.1 ht] at hn
  simpa [Token.isSpace] using hn

theorem run_bind_judge {feature : Feature} {n : Nat} {f : Unit → Parser β} {ws₁ ws₂ : List Warning}
    (h : c.dialect.Passes [⟨feature, n⟩] ws₁) (k : (f ()).run c ts = ⟨.ok b, ws₂, us⟩) :
    (judge feature n >>= f).run c ts = ⟨.ok b, ws₁ ++ ws₂, us⟩ :=
  run_bind_of_ok (run_judge_eq_ok.2 ⟨rfl, h⟩) k

theorem exists_of_run_bind_judge {feature : Feature} {n : Nat} {f : Unit → Parser β}
    (h : (judge feature n >>= f).run c ts = ⟨.ok b, ws, us⟩) :
    ∃ ws₁ ws₂, ws = ws₁ ++ ws₂ ∧ c.dialect.Passes [⟨feature, n⟩] ws₁ ∧
      (f ()).run c ts = ⟨.ok b, ws₂, us⟩ := by
  rw [run_bind_eq_ok] at h
  obtain ⟨_, ws₁, _, ws₂, hj, h, rfl⟩ := h
  obtain ⟨rfl, hp⟩ := run_judge_eq_ok.1 hj
  exact ⟨ws₁, ws₂, rfl, hp, h⟩

@[simp] theorem run_failAt (t : Token) (flaw : String → Flaw) :
    (failAt t flaw : Parser β).run c ts =
      ⟨.error (.malformed (flaw t.describe) t.position), [], ts⟩ := rfl

@[simp] theorem run_expected (what : Expectation) :
    (expected what : Parser β).run c ts =
      ⟨.error (.malformed (.expected what (c.front ts).describe) (c.front ts).position), [], ts⟩ :=
  rfl

@[simp] theorem run_unexpected :
    (unexpected : Parser β).run c ts =
      ⟨.error (.malformed (.unexpected (c.front ts).describe) (c.front ts).position), [], ts⟩ :=
  rfl

theorem run_expect (kind : Token.Kind) (what : Expectation) :
    (expect kind what).run c ts =
      if (c.front ts).kind = kind then ⟨.ok (c.front ts), [], ts.drop 1⟩
      else (expected what).run c ts := by
  unfold expect
  simp only [run_bind_front]
  split <;> rfl

theorem run_expect_eq_ok {kind : Token.Kind} (hk : kind ≠ .endOfInput) {what : Expectation}
    {t : Token} :
    (expect kind what).run c ts = ⟨.ok t, ws, us⟩ ↔ ts = t :: us ∧ t.kind = kind ∧ ws = [] := by
  rw [run_expect]
  cases ts with
  | nil => simp [hk.symm]
  | cons u vs =>
    by_cases h : u.kind = kind
    · simp only [Context.front_cons, h, if_true, List.drop_one, List.tail_cons, Step.mk.injEq,
        Except.ok.injEq, List.cons.injEq]
      constructor
      · rintro ⟨rfl, rfl, rfl⟩
        exact ⟨⟨rfl, rfl⟩, h, rfl⟩
      · rintro ⟨⟨rfl, rfl⟩, -, rfl⟩
        exact ⟨rfl, rfl, rfl⟩
    · simp only [Context.front_cons, h, if_false, run_expected]
      simp only [Step.mk.injEq, reduceCtorEq, false_and, List.cons.injEq, false_iff]
      rintro ⟨⟨rfl, -⟩, hu, -⟩
      exact h hu

theorem exists_of_run_bind_expect {kind : Token.Kind} (hk : kind ≠ .endOfInput)
    {what : Expectation} {f : Token → Parser β}
    (h : (expect kind what >>= f).run c ts = ⟨.ok b, ws, us⟩) :
    ∃ t vs, ts = t :: vs ∧ t.kind = kind ∧ (f t).run c vs = ⟨.ok b, ws, us⟩ := by
  rw [run_bind_eq_ok] at h
  obtain ⟨t, _, vs, _, he, h, rfl⟩ := h
  obtain ⟨rfl, ht, rfl⟩ := (run_expect_eq_ok hk).1 he
  exact ⟨t, vs, rfl, ht, h⟩

theorem run_bind_expect_cons {kind : Token.Kind} {t : Token} (h : t.kind = kind)
    (what : Expectation) (f : Token → Parser β) :
    (expect kind what >>= f).run c (t :: ts) = (f t).run c ts := by
  rw [run_bind, run_expect, Context.front_cons, if_pos h]
  rfl

theorem run_built_eq_ok {x : Except EmptyName α} {a : α} :
    (built x).run c ts = ⟨.ok a, ws, us⟩ ↔ x = .ok a ∧ ws = [] ∧ us = ts := by
  cases x with
  | error e => simp [built]
  | ok a' =>
    simp only [built, run_pure, Step.mk.injEq, Except.ok.injEq]
    exact ⟨fun ⟨ha, hw, ht⟩ => ⟨ha, hw.symm, ht.symm⟩, fun ⟨ha, hw, ht⟩ => ⟨ha, hw.symm, ht.symm⟩⟩

theorem run_written_eq_ok {start stop : Nat} {text : List Char} :
    (written start stop).run c ts = ⟨.ok text, ws, us⟩ ↔
      Text.slice? c.source start stop = some text ∧ ws = [] ∧ us = ts := by
  unfold written
  simp only [run_bind_context]
  cases Text.slice? c.source start stop with
  | none => simp
  | some cs =>
    simp only [run_pure, Step.mk.injEq, Except.ok.injEq, Option.some.injEq]
    exact ⟨fun ⟨ha, hw, ht⟩ => ⟨ha, hw.symm, ht.symm⟩, fun ⟨ha, hw, ht⟩ => ⟨ha, hw.symm, ht.symm⟩⟩

section
variable {next : Option α → Token → Option (Parser (Option α))} {previous : Option α} {t : Token}

theorem manyAfter_nil : manyAfter next c previous [] = ⟨.ok [], [], []⟩ := by
  rw [manyAfter]

theorem manyAfter_stop (h : next previous t = none) :
    manyAfter next c previous (t :: ts) = ⟨.ok [], [], t :: ts⟩ := by
  rw [manyAfter, h]

theorem manyAfter_last {p : Parser (Option α)} (h : next previous t = some p)
    (hp : p.run c ts = ⟨.ok none, ws, us⟩) :
    manyAfter next c previous (t :: ts) = ⟨.ok [], ws, us⟩ := by
  rw [manyAfter, h]
  simp only [hp]

theorem manyAfter_step {p : Parser (Option α)} {a : α} {as : List α} {vs : List Token}
    {ws' : List Warning} (h : next previous t = some p)
    (hp : p.run c ts = ⟨.ok (some a), ws, us⟩)
    (hr : manyAfter next c (some a) us = ⟨.ok as, ws', vs⟩) :
    manyAfter next c previous (t :: ts) = ⟨.ok (a :: as), ws ++ ws', vs⟩ := by
  rw [manyAfter, h]
  simp only [hp, hr]
  rfl

end

def manyFrom (next : Option α → Token → Option (Parser (Option α))) (previous : Option α) :
    Parser (List α) :=
  ⟨fun c ts => manyAfter next c previous ts, fun c ts => manyAfter_suffix next c previous ts⟩

theorem run_manyFrom_nil (next : Option α → Token → Option (Parser (Option α)))
    (previous : Option α) (c : Context) :
    (manyFrom next previous).run c [] = ⟨.ok [], [], []⟩ := manyAfter_nil

theorem run_manyFrom_stop {next : Option α → Token → Option (Parser (Option α))}
    {previous : Option α} {t : Token} (h : next previous t = none) :
    (manyFrom next previous).run c (t :: ts) = ⟨.ok [], [], t :: ts⟩ := manyAfter_stop h

theorem run_manyFrom_cons {next : Option α → Token → Option (Parser (Option α))}
    {previous : Option α} {t : Token} {p : Parser (Option α)} (h : next previous t = some p) :
    (manyFrom next previous).run c (t :: ts) = (p >>= fun o => match o with
      | none => pure []
      | some a => do return a :: (← manyFrom next (some a))).run c ts := by
  change manyAfter next c previous (t :: ts) = _
  rw [manyAfter, h]
  rcases hp : p.run c ts with ⟨e | o, ws, us⟩
  · rw [run_bind_error hp]
    simp only [hp]
  · rw [run_bind_ok hp]
    cases o with
    | none => simp [hp]
    | some a =>
      simp only [hp]
      rcases hr : (manyFrom next (some a)).run c us with ⟨e | as, ws', vs⟩
      · rw [run_bind_error hr]
        change manyAfter next c (some a) us = _ at hr
        rw [hr]
        rfl
      · rw [run_return_of_ok hr]
        change manyAfter next c (some a) us = _ at hr
        rw [hr]
        rfl

/-- What holds of every way in which a repetition succeeds: it stops before a token, or in the
middle of a round, or goes on after one. -/
theorem manyAfter_induction {next : Option α → Token → Option (Parser (Option α))}
    {P : Option α → List Token → List α → List Warning → List Token → Prop}
    (nil : ∀ previous, P previous [] [] [] [])
    (stop : ∀ previous t us, next previous t = none → P previous (t :: us) [] [] (t :: us))
    (last : ∀ previous t us p ws vs, next previous t = some p →
      p.run c us = ⟨.ok none, ws, vs⟩ → P previous (t :: us) [] ws vs)
    (step : ∀ previous t us p a ws vs as ws' rest, next previous t = some p →
      p.run c us = ⟨.ok (some a), ws, vs⟩ → P (some a) vs as ws' rest →
      P previous (t :: us) (a :: as) (ws ++ ws') rest)
    {previous : Option α} {as : List α}
    (h : manyAfter next c previous ts = ⟨.ok as, ws, us⟩) : P previous ts as ws us := by
  fun_induction manyAfter next c previous ts generalizing as ws us with
  | case1 previous =>
    cases h
    exact nil previous
  | case2 previous t us hn =>
    cases h
    exact stop previous t us hn
  | case3 => cases h
  | case4 previous t us p hp s =>
    rename_i hs
    cases h
    exact last previous t us p _ _ hp (by rw [← hs])
  | case5 previous t us p hp s a hs =>
    rename_i r ih
    rcases hr : r with ⟨e | bs, ws', rest⟩
    · rw [hr] at h
      cases h
    · rw [hr] at h
      cases h
      exact step previous t us p a _ _ bs _ _ hp (by rw [← hs]) (ih hr)

end Parser
end CssSelector.Parse

namespace CssSelector.EmptyName

theorem map_check_eq_ok {α : Type} {e : EmptyName} {name : String} {f : String → α} {a : α} :
    (e.check name).map f = .ok a ↔ name ≠ "" ∧ a = f name := by
  unfold check
  by_cases h : name = ""
  · simp [h, Except.map]
  · simp [h, Except.map, eq_comm]

end CssSelector.EmptyName

namespace CssSelector.Parse.Parser

theorem run_built_check {α : Type} {c : Context} {ts : List Token} {e : EmptyName} {name : String}
    {f : String → α} (h : name ≠ "") :
    (built ((e.check name).map f)).run c ts = ⟨.ok (f name), [], ts⟩ :=
  run_built_eq_ok.2 ⟨EmptyName.map_check_eq_ok.2 ⟨h, rfl⟩, rfl, rfl⟩

end CssSelector.Parse.Parser

namespace CssSelector.Dialect

theorem parse_of_lexError {d : Dialect} {text : String} {e : LexError}
    (h : tokenize text = .error e) : d.parse text = .error (.lex e) := by
  rw [parse, h]
  rfl

theorem parse_of_tokenize {d : Dialect} {text : String} {ts : List Token}
    (h : tokenize text = .ok ts) : d.parse text = d.parseTokens text.toList ts.dropLast := by
  rw [parse, h]
  rfl

end CssSelector.Dialect
