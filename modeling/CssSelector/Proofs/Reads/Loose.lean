import CssSelector.Proofs.Reads

set_option autoImplicit false

namespace CssSelector.Parse

open CssSelector.Parse.Parser Text

/-- Balanced but for `depth` closing parentheses. -/
def Closes : Nat → List Token → Prop
  | 0, ts => Balanced ts
  | depth + 1, ts => ∃ xs t ys, ts = xs ++ t :: ys ∧ Balanced xs ∧ t.kind = .rightParen ∧
      Closes depth ys

theorem Closes.token {depth : Nat} {t : Token} {ts : List Token} (ho : t.kind ≠ .leftParen)
    (hc : t.kind ≠ .rightParen) (h : Closes depth ts) : Closes depth (t :: ts) := by
  cases depth with
  | zero => exact Balanced.token ho hc h
  | succ depth =>
    obtain ⟨xs, u, ys, rfl, hx, hu, hy⟩ := h
    exact ⟨t :: xs, u, ys, rfl, .token ho hc hx, hu, hy⟩

theorem Closes.open {depth : Nat} {o : Token} {ts : List Token} (ho : o.kind = .leftParen)
    (h : Closes (depth + 1) ts) : Closes depth (o :: ts) := by
  obtain ⟨xs, t, ys, rfl, hx, ht, hy⟩ := h
  cases depth with
  | zero => exact Balanced.parens ho hx ht hy
  | succ depth =>
    obtain ⟨zs, u, vs, rfl, hz, hu, hv⟩ := hy
    exact ⟨o :: (xs ++ t :: zs), u, vs, by simp, .parens ho hx ht hz, hu, hv⟩

theorem closing?_cons {t : Token} (ho : t.kind ≠ .leftParen) (hc : t.kind ≠ .rightParen)
    (depth : Nat) (ts : List Token) :
    closing? depth (t :: ts) = (closing? depth ts).map (· + 1) := by
  simp [closing?, hc]

theorem closing?_open {o : Token} (ho : o.kind = .leftParen) (depth : Nat) (ts : List Token) :
    closing? depth (o :: ts) = (closing? (depth + 1) ts).map (· + 1) := by
  simp [closing?, ho]

theorem closes_of_closing? {depth n : Nat} {ts : List Token} (h : closing? depth ts = some n) :
    ∃ xs t us, ts = xs ++ t :: us ∧ xs.length = n ∧ t.kind = .rightParen ∧ Closes depth xs := by
  induction ts generalizing depth n with
  | nil => simp [closing?] at h
  | cons t ts ih =>
    by_cases ho : t.kind = .leftParen
    · rw [closing?_open ho] at h
      obtain ⟨m, hm, rfl⟩ := Option.map_eq_some_iff.1 h
      obtain ⟨xs, u, us, rfl, rfl, hu, hx⟩ := ih hm
      exact ⟨t :: xs, u, us, rfl, rfl, hu, hx.open ho⟩
    by_cases hc : t.kind = .rightParen
    · cases depth with
      | zero =>
        have hn : 0 = n := by simpa [closing?, hc] using h
        exact ⟨[], t, ts, rfl, hn, hc, .nil⟩
      | succ depth =>
        have hn : (closing? depth ts).map (· + 1) = some n := by simpa [closing?, hc] using h
        obtain ⟨m, hm, rfl⟩ := Option.map_eq_some_iff.1 hn
        obtain ⟨xs, u, us, rfl, rfl, hu, hx⟩ := ih hm
        exact ⟨t :: xs, u, us, rfl, rfl, hu, [], t, xs, rfl, .nil, hc, hx⟩
    · rw [closing?_cons ho hc] at h
      obtain ⟨m, hm, rfl⟩ := Option.map_eq_some_iff.1 h
      obtain ⟨xs, u, us, rfl, rfl, hu, hx⟩ := ih hm
      exact ⟨t :: xs, u, us, rfl, rfl, hu, hx.token ho hc⟩

theorem Balanced.closing?_append {xs : List Token} (h : Balanced xs) (depth : Nat)
    (us : List Token) : closing? depth (xs ++ us) = (closing? depth us).map (· + xs.length) := by
  induction h generalizing depth us with
  | nil => simp
  | @token t ts ho hc _ ih =>
    rw [List.cons_append, closing?_cons ho hc, ih, Option.map_map]
    rfl
  | @parens o t ts vs ho _ ht _ iht ihv =>
    have hclose : closing? (depth + 1) (t :: (vs ++ us)) =
        (closing? depth (vs ++ us)).map (· + 1) := by simp [closing?, ht]
    rw [List.cons_append, List.append_assoc, List.cons_append, closing?_open ho, iht, hclose, ihv]
    simp only [Option.map_map, List.length_cons, List.length_append]
    congr 1
    funext n
    simp only [Function.comp_apply]
    omega

theorem Context.front_append (c : Context) (xs : List Token) (t : Token) (us : List Token) :
    c.front (xs ++ t :: us) = c.front (xs ++ [t]) := by
  cases xs <;> rfl

section
variable {c : Context} {category : Category} {name : String} {a : Option Argument}
  {ts us : List Token} {ws : List Warning}

theorem looseArgument_sound (hσ : c.dialect.signature? category name = none)
    (h : looseArgument.run c ts = ⟨.ok a, ws, us⟩) :
    ∃ xs, ts = xs ++ us ∧ Reads c xs (.argument category name a) [] ∧ ws = [] := by
  rw [looseArgument, run_bind_front] at h
  by_cases ho : (c.front ts).kind = .leftParen
  · cases ts with
    | nil => simp at ho
    | cons o ts =>
      simp only [ho, if_true, run_bind_skip, List.drop_one, List.tail_cons, run_bind_ahead] at h
      rw [Context.front_cons] at ho
      cases hn : closing? 0 ts with
      | none => simp [hn] at h
      | some n =>
        obtain ⟨xs, t, vs, rfl, rfl, ht, hx⟩ := closes_of_closing? hn
        simp only [hn, run_bind_front, run_bind_skip, List.drop_left, Context.front_cons] at h
        rw [run_bind_eq_ok] at h
        obtain ⟨text, _, _, _, hw, h, rfl⟩ := h
        obtain ⟨hs, rfl, rfl⟩ := run_written_eq_ok.1 hw
        cases h
        rw [Context.front_append] at hs
        exact ⟨o :: (xs ++ [t]), by simp, .loose hσ ho hx ht hs, rfl⟩
  · simp only [ho, if_false, run_pure] at h
    cases h
    exact ⟨[], rfl, .bareUnknown hσ, rfl⟩

theorem run_looseArgument_bare (h : ∀ t ∈ us.head?, t.kind ≠ .leftParen) :
    looseArgument.run c us = ⟨.ok none, [], us⟩ := by
  have hf : (c.front us).kind ≠ .leftParen := by
    cases us with
    | nil => simp
    | cons t us => exact h t rfl
  rw [looseArgument, run_bind_front, if_neg hf, run_pure]

theorem run_looseArgument {o t : Token} {xs : List Token} {text : List Char}
    (ho : o.kind = .leftParen) (hx : Balanced xs) (ht : t.kind = .rightParen)
    (hs : slice? c.source (c.front (xs ++ [t])).position t.position = some text) :
    looseArgument.run c (o :: (xs ++ t :: us)) =
      ⟨.ok (some (.string (String.ofList (trim text)))), [], us⟩ := by
  have hn : closing? 0 (xs ++ t :: us) = some xs.length := by
    rw [hx.closing?_append]
    simp [closing?, ht]
  rw [looseArgument, run_bind_front, Context.front_cons, if_pos ho]
  simp only [run_bind_skip, List.drop_one, List.tail_cons, run_bind_ahead, hn, run_bind_front,
    List.drop_left, Context.front_cons]
  rw [← List.nil_append ([] : List Warning)]
  refine run_bind_of_ok (run_written_eq_ok.2 ⟨?_, rfl, rfl⟩) rfl
  rw [Context.front_append, hs]

end

end CssSelector.Parse
