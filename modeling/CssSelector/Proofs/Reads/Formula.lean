import CssSelector.Proofs.Formula
import CssSelector.Proofs.Reads

set_option autoImplicit false

namespace CssSelector

open Text

namespace Parse

open CssSelector.Parse.Parser

theorem exists_of_formulaTexts?_cons {t : Token} {ts : List Token} {text : List Char}
    (h : formulaTexts? (t :: ts) = some text) :
    ∃ cs rest, formulaText? t = some cs ∧ formulaTexts? ts = some rest ∧ text = cs ++ rest := by
  obtain ⟨cs, hcs, h⟩ := Option.bind_eq_some_iff.1 h
  obtain ⟨rest, hrest, h⟩ := Option.bind_eq_some_iff.1 h
  cases h
  exact ⟨cs, rest, hcs, hrest, rfl⟩

theorem exists_of_formulaTexts?_append {ts us : List Token} {text : List Char}
    (h : formulaTexts? (ts ++ us) = some text) :
    ∃ cs rest, formulaTexts? ts = some cs ∧ formulaTexts? us = some rest ∧ text = cs ++ rest := by
  induction ts generalizing text with
  | nil => exact ⟨[], text, rfl, h, rfl⟩
  | cons t ts ih =>
    obtain ⟨cs, rest, ht, hts, rfl⟩ := exists_of_formulaTexts?_cons h
    obtain ⟨ds, rest, hds, hrest, rfl⟩ := ih hts
    exact ⟨cs ++ ds, rest, by simp [formulaTexts?, ht, hds], hrest, by simp⟩

theorem formulaTexts?_append {ts us : List Token} {text : List Char}
    (h : formulaTexts? ts = some text) :
    formulaTexts? (ts ++ us) = (formulaTexts? us).map (text ++ ·) := by
  induction ts generalizing text with
  | nil =>
    cases h
    simp
  | cons t ts ih =>
    obtain ⟨cs, rest, ht, hts, rfl⟩ := exists_of_formulaTexts?_cons h
    rw [List.cons_append, formulaTexts?, ht, ih hts]
    cases formulaTexts? us <;> simp

theorem Spaces.exists_formulaTexts? {ws : List Token} (h : Spaces ws) :
    ∃ text, formulaTexts? ws = some text ∧ ∀ c ∈ text, isBlank c := by
  induction ws with
  | nil => exact ⟨[], rfl, by simp⟩
  | cons w ws ih =>
    obtain ⟨hw, hws⟩ := List.forall_mem_cons.1 h
    obtain ⟨text, htext, hblank⟩ := ih hws
    exact ⟨' ' :: text, by simp [formulaTexts?, formulaText?, hw, htext],
      List.forall_mem_cons.2 ⟨by decide, hblank⟩⟩

theorem subset_of_formulaTexts? {ts : List Token} {text : List Char}
    (h : formulaTexts? ts = some text) {t : Token} (ht : t ∈ ts) :
    ∃ cs, formulaText? t = some cs ∧ cs ⊆ text := by
  obtain ⟨us, vs, rfl⟩ := List.append_of_mem ht
  obtain ⟨pre, post, -, hpost, rfl⟩ := exists_of_formulaTexts?_append h
  obtain ⟨cs, rest, hcs, -, rfl⟩ := exists_of_formulaTexts?_cons hpost
  exact ⟨cs, hcs, by simp⟩

/-- A token of a formula: it is no parenthesis, and not the keyword. -/
def StandsInFormula (t : Token) : Prop :=
  (formulaText? t).isSome ∧ ¬(t.kind = .ident ∧ sameLetters t.text "of")

theorem ReadsFormula.stands {ts : List Token} {f : Formula} (h : ReadsFormula ts f) {t : Token}
    (ht : t ∈ ts) : StandsInFormula t := by
  obtain ⟨text, htext, hf⟩ := h
  obtain ⟨cs, hcs, hsub⟩ := subset_of_formulaTexts? htext ht
  refine ⟨by simp [hcs], fun ⟨hk, hof⟩ => ?_⟩
  have hfold : t.text.toList.map Char.toLower = ['o', 'f'] := by
    have h := congrArg String.toList (of_decide_eq_true hof)
    simpa [fold] using h
  have hcs : cs = t.text.toList := by simpa [formulaText?, hk] using hcs.symm
  obtain ⟨x, hx, hxf⟩ := List.mem_map.1 (hfold ▸ (by simp : 'f' ∈ ['o', 'f']))
  have hb : ¬isBlank x := fun hb => toLower_ne_of_isBlank hb hxf
  exact Formula.toLower_ne_of_read? hf x
    (mem_trim_of_not_isBlank hb (hsub (hcs ▸ hx))) hxf

def lastKind (previous : Token.Kind) : List Token → Token.Kind
  | [] => previous
  | t :: ts => lastKind t.kind ts

@[simp] theorem lastKind_append (previous : Token.Kind) (ts : List Token) (w : Token) :
    lastKind previous (ts ++ [w]) = w.kind := by
  induction ts generalizing previous with
  | nil => rfl
  | cons t ts ih => exact ih t.kind

theorem exists_of_lastKind {previous : Token.Kind} {ts : List Token}
    (h : lastKind previous ts = .whitespace) (hp : previous ≠ .whitespace) :
    ∃ us w, ts = us ++ [w] ∧ w.kind = .whitespace := by
  rcases List.eq_nil_or_concat ts with rfl | ⟨us, w, rfl⟩
  · exact absurd h hp
  · rw [List.concat_eq_append] at *
    exact ⟨us, w, rfl, by simpa using h⟩

theorem FormulaRun.push_sound {t : Token} {ts : List Token} {q r : FormulaRun}
    (hr : q.push t = r)
    (h : ∃ xs us, ts = xs ++ us ∧ xs.length = q.length ∧ q.text = formulaTexts? xs) :
    ∃ xs us, t :: ts = xs ++ us ∧ xs.length = r.length ∧ r.text = formulaTexts? xs := by
  obtain ⟨xs, us, rfl, hl, ht⟩ := h
  subst hr
  exact ⟨t :: xs, us, rfl, by simp [push, hl], by rw [push, ht]; rfl⟩

theorem formulaRun_sound {limit : Option Nat} {depth : Nat} {ts : List Token} {r : FormulaRun}
    (h : formulaRun limit depth ts = some r) :
    ∃ xs us, ts = xs ++ us ∧ xs.length = r.length ∧ r.text = formulaTexts? xs := by
  fun_induction formulaRun limit depth ts generalizing r with
  | case1 | case3 | case4 =>
    cases h
    exact ⟨[], _, rfl, rfl, rfl⟩
  | case2 => contradiction
  | case5 | case6 | case7 =>
    rename_i ih
    obtain ⟨q, hq, hr⟩ := Option.map_eq_some_iff.1 h
    exact FormulaRun.push_sound hr (ih hq)

theorem formulaRun_open {t : Token} (ht : t.kind = .leftParen) (n depth : Nat)
    (ts : List Token) :
    formulaRun (some (n + 1)) depth (t :: ts) =
      (formulaRun (some n) (depth + 1) ts).map (.push t) := by
  simp [formulaRun, ht]

theorem formulaRun_close {t : Token} (ht : t.kind = .rightParen) (n depth : Nat)
    (ts : List Token) :
    formulaRun (some (n + 1)) (depth + 1) (t :: ts) =
      (formulaRun (some n) depth ts).map (.push t) := by
  simp [formulaRun, ht]

theorem formulaRun_cons {limit : Option Nat} {t : Token} (ho : t.kind ≠ .leftParen)
    (hc : t.kind ≠ .rightParen) (hl : limit ≠ some 0) (depth : Nat) (ts : List Token) :
    formulaRun limit depth (t :: ts) =
      (formulaRun (limit.map (· - 1)) depth ts).map (.push t) := by
  simp [formulaRun, hc, hl]

/-- Up to the keyword nothing closes the argument, and the tokens do not end. -/
theorem exists_formulaRun_of_ofKeyword? {previous : Token.Kind} {depth n : Nat} {ts : List Token}
    (h : ofKeyword? previous depth ts = some n) :
    ∃ r, formulaRun (some n) depth ts = some r ∧ r.length = n := by
  -- a token before the keyword is one of the run up to it, whatever it does to the depth
  have hpush {t : Token} {depth depth' m : Nat} {us vs : List Token}
      (hrun : formulaRun (some (m + 1)) depth us = (formulaRun (some m) depth' vs).map (.push t))
      (ih : ∃ r, formulaRun (some m) depth' vs = some r ∧ r.length = m) :
      ∃ r, formulaRun (some (m + 1)) depth us = some r ∧ r.length = m + 1 := by
    obtain ⟨r, hr, hl⟩ := ih
    exact ⟨r.push t, by rw [hrun, hr]; rfl, by simp [FormulaRun.push, hl]⟩
  fun_induction ofKeyword? previous depth ts generalizing n with
  | case1 | case3 => contradiction
  | case2 previous depth t ts hk ih =>
    obtain ⟨m, hm, rfl⟩ := Option.map_eq_some_iff.1 h
    exact hpush (formulaRun_open hk m depth ts) (ih hm)
  | case4 previous t ts depth hk ih =>
    obtain ⟨m, hm, rfl⟩ := Option.map_eq_some_iff.1 h
    exact hpush (formulaRun_close hk m depth ts) (ih hm)
  | case5 previous t ts hk hof =>
    cases h
    exact ⟨.empty, by simp [formulaRun], rfl⟩
  | case6 previous t ts hk hof ih =>
    obtain ⟨m, hm, rfl⟩ := Option.map_eq_some_iff.1 h
    exact hpush (formulaRun_cons (by simp [hk]) (by simp [hk]) (by simp) 0 ts) (ih hm)
  | case7 previous depth t ts ho hc₀ hc₁ _ ih =>
    have hc : t.kind ≠ .rightParen := by
      intro hk
      cases depth with
      | zero => exact hc₀ hk rfl
      | succ depth => exact hc₁ depth hk rfl
    obtain ⟨m, hm, rfl⟩ := Option.map_eq_some_iff.1 h
    exact hpush (formulaRun_cons ho hc (by simp) depth ts) (ih hm)

theorem ofKeyword?_sound {previous : Token.Kind} {depth n : Nat} {ts : List Token}
    (h : ofKeyword? previous depth ts = some n) :
    ∃ xs t us, ts = xs ++ t :: us ∧ xs.length = n ∧ t.kind = .ident ∧ sameLetters t.text "of" ∧
      lastKind previous xs = .whitespace := by
  fun_induction ofKeyword? previous depth ts generalizing n with
  | case1 | case3 => contradiction
  | case5 previous t ts hk hof =>
    cases h
    exact ⟨[], t, ts, rfl, rfl, hk, hof.1, hof.2⟩
  | case2 _ _ t | case4 _ t | case6 _ t | case7 _ _ t =>
    rename_i ih
    obtain ⟨m, hm, rfl⟩ := Option.map_eq_some_iff.1 h
    obtain ⟨xs, u, us, rfl, rfl, hk, hof, hl⟩ := ih hm
    exact ⟨t :: xs, u, us, rfl, rfl, hk, hof, hl⟩

theorem formulaRun_append {limit : Option Nat} {xs us : List Token} {text : List Char}
    (hx : formulaTexts? xs = some text) (hu : formulaRun limit 0 us = some .empty) :
    formulaRun (limit.map (· + xs.length)) 0 (xs ++ us) = some ⟨xs.length, some text⟩ := by
  induction xs generalizing text with
  | nil =>
    cases hx
    simpa [FormulaRun.empty] using hu
  | cons t xs ih =>
    obtain ⟨cs, rest, ht, hxs, rfl⟩ := exists_of_formulaTexts?_cons hx
    have hl : (limit.map (· + (t :: xs).length)).map (· - 1) = limit.map (· + xs.length) := by
      cases limit <;> rfl
    rw [List.cons_append, formulaRun_cons, hl, ih hxs]
    · simp [FormulaRun.push, ht]
    · exact fun hk => by simp [formulaText?, hk] at ht
    · exact fun hk => by simp [formulaText?, hk] at ht
    · cases limit <;> simp

/-- The search for the keyword passes over the tokens of a formula. -/
theorem ofKeyword?_append {previous : Token.Kind} {xs us : List Token}
    (hx : ∀ t ∈ xs, StandsInFormula t) :
    ofKeyword? previous 0 (xs ++ us) =
      (ofKeyword? (lastKind previous xs) 0 us).map (· + xs.length) := by
  induction xs generalizing previous with
  | nil => simp [lastKind]
  | cons t xs ih =>
    obtain ⟨hs, hof⟩ := hx t List.mem_cons_self
    have ht : ofKeyword? previous 0 (t :: (xs ++ us)) =
        (ofKeyword? t.kind 0 (xs ++ us)).map (· + 1) := by
      cases hk : t.kind with
      | ident =>
        have hne : ¬sameLetters t.text "of" := fun h => hof ⟨hk, h⟩
        simp [ofKeyword?, hk, hne]
      | number | delim | combinator | whitespace => simp [ofKeyword?, hk]
      | _ => simp [formulaText?, hk] at hs
    rw [List.cons_append, ht, ih fun u hu => hx u (List.mem_cons_of_mem _ hu), Option.map_map]
    rfl

section
variable {c : Context} {ts us : List Token} {ws : List Warning} {f : Formula}

theorem formula_sound {start : Nat} {limit : Option Nat}
    (h : (formula start limit).run c ts = ⟨.ok f, ws, us⟩) :
    ∃ r xs, formulaRun limit 0 ts = some r ∧ ts = xs ++ us ∧ xs.length = r.length ∧
      ReadsFormula xs f ∧ ws = [] := by
  rw [formula, run_bind_ahead] at h
  cases hr : formulaRun limit 0 ts with
  | none => simp [hr] at h
  | some r =>
    obtain ⟨xs, vs, rfl, hl, ht⟩ := formulaRun_sound hr
    simp only [hr, run_bind_context, run_bind_skip, ← hl, List.drop_left] at h
    cases htext : r.text with
    | none =>
      simp only [htext, run_bind_front] at h
      rw [run_bind_eq_ok] at h
      obtain ⟨_, _, _, _, _, h, -⟩ := h
      simp [invalidFormula] at h
    | some text =>
      simp only [htext] at h
      cases hf : Formula.read? (trim text) with
      | none => simp [hf, invalidFormula] at h
      | some g =>
        simp only [hf, run_pure] at h
        cases h
        exact ⟨r, xs, rfl, rfl, hl, ⟨text, ht ▸ htext, hf⟩, rfl⟩

theorem run_formula {start : Nat} (limit : Option Nat) {xs : List Token} (hx : ReadsFormula xs f)
    (hu : formulaRun limit 0 us = some .empty) :
    (formula start (limit.map (· + xs.length))).run c (xs ++ us) = ⟨.ok f, [], us⟩ := by
  obtain ⟨text, ht, hf⟩ := hx
  rw [formula, run_bind_ahead]
  simp only [formulaRun_append ht hu, run_bind_context, run_bind_skip, List.drop_left, hf, run_pure]

theorem formulaOfSelector_sound {nested : Parser Selector} {start : Nat} {a : Argument}
    (h : (formulaOfSelector nested start).run c ts = ⟨.ok a, ws, us⟩) :
    (∃ xs f, ts = xs ++ us ∧ ReadsFormula xs f ∧ a = .formulaOfSelector f none ∧ ws = []) ∨
      ∃ xs w t vs f s, ts = xs ++ w :: t :: vs ∧ ReadsFormula (xs ++ [w]) f ∧
        w.kind = .whitespace ∧ t.kind = .ident ∧ sameLetters t.text "of" ∧
        nested.run c vs = ⟨.ok s, ws, us⟩ ∧ a = .formulaOfSelector f (some s) := by
  rw [formulaOfSelector, run_bind_ahead] at h
  cases hn : ofKeyword? .leftParen 0 ts with
  | none =>
    simp only [hn] at h
    rw [run_bind_eq_ok] at h
    obtain ⟨f, _, _, _, hf, h, rfl⟩ := h
    obtain ⟨_, xs, -, rfl, -, hx, rfl⟩ := formula_sound hf
    cases h
    exact .inl ⟨xs, f, rfl, hx, rfl, rfl⟩
  | some n =>
    simp only [hn] at h
    rw [run_bind_eq_ok] at h
    obtain ⟨f, _, _, _, hf, h, rfl⟩ := h
    obtain ⟨r, xs, hr, rfl, hl, hx, rfl⟩ := formula_sound hf
    obtain ⟨ys, t, vs, hys, rfl, ht, hof, hlast⟩ := ofKeyword?_sound hn
    obtain ⟨q, hq, hlen⟩ := exists_formulaRun_of_ofKeyword? hn
    obtain rfl := Option.some.inj (hr.symm.trans hq)
    obtain ⟨rfl, rfl⟩ := List.append_inj hys (hl.trans hlen)
    obtain ⟨zs, w, rfl, hw⟩ := exists_of_lastKind hlast (by decide)
    rw [run_bind_skip, List.drop_one, List.tail_cons, run_bind_eq_ok] at h
    obtain ⟨s, _, _, _, hs, h, rfl⟩ := h
    cases h
    refine .inr ⟨zs, w, t, vs, f, s, by simp, hx, hw, ht, hof, ?_, rfl⟩
    simpa using hs

theorem run_formulaOfSelector_alone {nested : Parser Selector} {start : Nat} {xs : List Token}
    {t : Token} (hx : ReadsFormula xs f) (ht : t.kind = .rightParen) :
    (formulaOfSelector nested start).run c (xs ++ t :: us) =
      ⟨.ok (.formulaOfSelector f none), [], t :: us⟩ := by
  have hk : ofKeyword? .leftParen 0 (xs ++ t :: us) = none := by
    rw [ofKeyword?_append fun t ht => hx.stands ht]
    simp [ofKeyword?, ht]
  have hf : (formula start none).run c (xs ++ t :: us) = ⟨.ok f, [], t :: us⟩ :=
    run_formula none hx (by simp [formulaRun, ht])
  rw [formulaOfSelector, run_bind_ahead]
  simp only [hk]
  exact run_bind_of_ok hf rfl

theorem run_formulaOfSelector_of {nested : Parser Selector} {start : Nat} {xs vs : List Token}
    {w t : Token} {s : Selector} (hx : ReadsFormula (xs ++ [w]) f) (hw : w.kind = .whitespace)
    (ht : t.kind = .ident) (hof : sameLetters t.text "of")
    (hs : nested.run c vs = ⟨.ok s, ws, us⟩) :
    (formulaOfSelector nested start).run c (xs ++ w :: t :: vs) =
      ⟨.ok (.formulaOfSelector f (some s)), ws, us⟩ := by
  have happ : xs ++ w :: t :: vs = (xs ++ [w]) ++ t :: vs := by simp
  have hk : ofKeyword? .leftParen 0 ((xs ++ [w]) ++ t :: vs) = some (xs ++ [w]).length := by
    rw [ofKeyword?_append fun t ht => hx.stands ht]
    simp [ofKeyword?, ht, hof, hw]
  have hf : (formula start (some (xs ++ [w]).length)).run c ((xs ++ [w]) ++ t :: vs) =
      ⟨.ok f, [], t :: vs⟩ := by
    simpa using run_formula (some 0) hx (by simp [formulaRun])
  rw [formulaOfSelector, run_bind_ahead, happ]
  simp only [hk]
  rw [← List.nil_append ws]
  refine run_bind_of_ok hf ?_
  rw [run_bind_skip, List.drop_one, List.tail_cons, ← List.append_nil ws]
  exact run_bind_of_ok hs rfl

end

end Parse
end CssSelector
