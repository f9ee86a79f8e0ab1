import CssSelector.Proofs.Progress

/-!
The keyword `of` behind a formula. It is looked for first, and the formula is read afterwards; both
count the parentheses on their own. Where the keyword is found the formula ends there and nowhere
else, and the selector is read from behind it (`Dialect.split_of_keyword`).
-/

set_option autoImplicit false

namespace CssSelector

namespace Parse

open CssSelector.Parse.Parser Text

theorem Site.run_formula (S : Site) {us : List Token} (hu : us <:+ S.tokens) {limit : Option Nat}
    {r : FormulaRun} (hr : formulaRun limit 0 us = some r) (start : Nat) :
    (∃ f, (Parse.formula start limit).run S.context us = ⟨.ok f, [], us.drop r.length⟩) ∨
      ∃ text n, (Parse.formula start limit).run S.context us =
        ⟨.error (.malformed (.invalidFormula text) n), [], us.drop r.length⟩ := by
  have hspace := (List.dropWhile_suffix Token.isSpace).trans hu
  rw [Parse.formula, run_bind_ahead]
  simp only [hr, run_bind_context, run_bind_skip]
  cases htext : r.text with
  | some text =>
    cases hf : Formula.read? (trim text) with
    | some f =>
      simp only [hf]
      exact .inl ⟨f, rfl⟩
    | none =>
      simp only [hf]
      exact .inr ⟨_, _, rfl⟩
  | none =>
    have hdrop := drop_suffix_of_formulaRun hr htext
    obtain ⟨text, hslice⟩ := Option.isSome_iff_exists.1 (before_front hspace hdrop)
    simp only [run_bind_front, run_bind_ok (run_written_eq_ok.2 ⟨hslice, rfl, rfl⟩)]
    exact .inr ⟨_, _, rfl⟩

theorem run_formulaOfSelector_keyword {nested : Parser Selector} {c : Context} {ts : List Token}
    {n : Nat} (hn : ofKeyword? .leftParen 0 ts = some n) (start : Nat) :
    (formulaOfSelector nested start).run c ts =
      (do
        let f ← formula start (some n)
        skip 1
        return .formulaOfSelector f (some (← nested)) : Parser Argument).run c ts := by
  rw [formulaOfSelector, run_bind_ahead]
  simp only [hn]

theorem run_formulaOfSelector_eq_ok {nested : Parser Selector} {c : Context}
    {ts us : List Token} {n : Nat} (hn : ofKeyword? .leftParen 0 ts = some n) {start : Nat}
    {a : Argument} {ws : List Warning} :
    (formulaOfSelector nested start).run c ts = ⟨.ok a, ws, us⟩ ↔
      ∃ f s vs, a = .formulaOfSelector f (some s) ∧
        (formula start (some n)).run c ts = ⟨.ok f, [], vs⟩ ∧
        nested.run c (vs.drop 1) = ⟨.ok s, ws, us⟩ := by
  rw [run_formulaOfSelector_keyword hn]
  constructor
  · intro h
    rw [run_bind_eq_ok] at h
    obtain ⟨f, _, vs, _, hf, h, rfl⟩ := h
    obtain ⟨_, _, -, -, -, -, rfl⟩ := formula_sound hf
    rw [run_bind_skip, run_bind_eq_ok] at h
    obtain ⟨s, _, _, _, hs, h, rfl⟩ := h
    cases h
    exact ⟨f, s, vs, rfl, hf, by simpa using hs⟩
  · rintro ⟨f, s, vs, rfl, hf, hs⟩
    rw [← List.nil_append ws]
    refine run_bind_of_ok hf ?_
    rw [run_bind_skip]
    exact run_return_of_ok hs

end Parse

namespace Dialect

open Parse Cursor Text

/-- The keyword splits an argument that starts at the index `i`. It is found behind `n` tokens, and
the formula is read up to there and no further: it comes to what these tokens say, or to the error
that they are no formula. The argument is read where the selector is that starts behind the
keyword. -/
structure SplitAt (d : Dialect) (text : String) (all : List Token) (i n : Nat) : Prop where
  search : keyword? all i 0 (all.drop i) = some (some (i + n))
  keyword : ∃ t, all[i + n]? = some t ∧ t.kind = .ident ∧ sameLetters t.text "of"
  stop : ∃ said, formulaEnd? all (some (i + n)) i = some (some (i + n, said))
  formula : ∀ start, ∃ r,
    (∀ j x, Leads ⟨d, text.toList⟩ all (Parse.formula start (some n)) i j x ↔
      j = i + n ∧ x = r) ∧
    ((∃ f, r = .ok f ∧ ReadsFormula ((all.drop i).take n) f) ∨
      ∃ s p, r = .error (.malformed (.invalidFormula s) p))
  argument : ∀ nested start j a,
    Leads ⟨d, text.toList⟩ all (formulaOfSelector nested start) i j (.ok a) ↔
      ∃ f s, a = .formulaOfSelector f (some s) ∧
        Leads ⟨d, text.toList⟩ all (Parse.formula start (some n)) i (i + n) (.ok f) ∧
        Leads ⟨d, text.toList⟩ all nested (i + n + 1) j (.ok s)

section
variable {d : Dialect} {text : String} {all us : List Token} {i n : Nat}

theorem exists_leads_formula (h : tokenize text = .ok all)
    (hi : Left all (Context.front ⟨d, text.toList⟩ []) i us)
    (hn : ofKeyword? .leftParen 0 us = some n) (start : Nat) :
    ∃ r, Leads ⟨d, text.toList⟩ all (Parse.formula start (some n)) i (i + n) r ∧
      ((∃ f, r = .ok f ∧ ReadsFormula (us.take n) f) ∨
        ∃ s p, r = .error (.malformed (.invalidFormula s) p)) := by
  obtain ⟨q, hq, hl⟩ := exists_formulaRun_of_ofKeyword? hn
  obtain ⟨xs, t, vs, hus, hx, -⟩ := ofKeyword?_sound hn
  have hj := hi.drop (n := n) (by simp [hus, ← hx])
  have hrun := (Site.ofTokenize d h).run_formula hi.suffix_dropLast hq start
  rw [hl] at hrun
  rcases hrun with ⟨f, hf⟩ | ⟨s, p, hf⟩
  · refine ⟨_, ⟨us, [], _, hi, hf, hj⟩, .inl ⟨f, rfl, ?_⟩⟩
    obtain ⟨q', ys, hq', hys, hy, hreads, -⟩ := formula_sound hf
    obtain rfl := Option.some.inj (hq.symm.trans hq')
    have htake : us.take n = ys := by
      rw [hys, ← hl, ← hy, List.take_left]
    rwa [htake]
  · exact ⟨_, ⟨us, [], _, hi, hf, hj⟩, .inr ⟨s, p, rfl⟩⟩

theorem leads_formulaOfSelector_iff (h : tokenize text = .ok all)
    (hi : Left all (Context.front ⟨d, text.toList⟩ []) i us)
    (hn : ofKeyword? .leftParen 0 us = some n) {nested : Parser Selector} {start j : Nat}
    {a : Argument} :
    Leads ⟨d, text.toList⟩ all (formulaOfSelector nested start) i j (.ok a) ↔
      ∃ f s, a = .formulaOfSelector f (some s) ∧
        Leads ⟨d, text.toList⟩ all (Parse.formula start (some n)) i (i + n) (.ok f) ∧
        Leads ⟨d, text.toList⟩ all nested (i + n + 1) j (.ok s) := by
  have hlt : i + n + 1 < all.length := by
    obtain ⟨xs, t, vs, rfl, rfl, -⟩ := ofKeyword?_sound hn
    have hlength := hi.length_eq
    simp at hlength
    omega
  constructor
  · rintro ⟨us', ws, vs, hi', hr, hj⟩
    obtain rfl := hi'.unique hi
    obtain ⟨f, s, zs, rfl, hf, hs⟩ := (run_formulaOfSelector_eq_ok hn).1 hr
    obtain ⟨r, ⟨us', ws', zs', hi', hf', hz⟩, -⟩ := exists_leads_formula h hi hn start
    obtain rfl := hi'.unique hi
    rw [hf] at hf'
    cases hf'
    exact ⟨f, s, rfl, ⟨_, [], zs, hi, hf, hz⟩, ⟨_, ws, vs, hz.drop_one hlt, hs, hj⟩⟩
  · rintro ⟨f, s, rfl, ⟨us', ws', zs, hi', hf, hz⟩, ⟨ys, ws, vs, hy, hs, hj⟩⟩
    obtain rfl := hi'.unique hi
    obtain ⟨_, _, -, -, -, -, rfl⟩ := formula_sound hf
    obtain rfl := hy.unique (hz.drop_one hlt)
    exact ⟨_, ws, vs, hi, (run_formulaOfSelector_eq_ok hn).2 ⟨f, s, zs, rfl, hf, hs⟩, hj⟩

/-- Where the keyword is found behind an opening parenthesis it splits the argument. -/
theorem split_of_keyword (d : Dialect) {text : String} {all : List Token} {k n : Nat} {o : Token}
    (h : tokenize text = .ok all) (hk : all[k]? = some o) (ho : o.kind = .leftParen)
    (hn : ofKeyword? .leftParen 0 (all.dropLast.drop (k + 1)) = some n) :
    d.SplitAt text all (k + 1) n := by
  obtain ⟨xs, t, vs, hus, hx, ht, hof, -⟩ := ofKeyword?_sound hn
  have hle : n ≤ (all.dropLast.drop (k + 1)).length := by simp [hus, ← hx]
  have hk' : k + 1 < all.length := by
    have hlength := congrArg List.length hus
    simp at hlength
    omega
  have hi := left_of_tokenize d h hk'
  have hj := hi.drop hle
  have hdrop : (all.dropLast.drop (k + 1)).drop n = t :: vs := by rw [hus, ← hx, List.drop_left]
  constructor
  case search =>
    rw [hi.drop_eq, hi.keyword?_eq hk, ho, hn]
    rfl
  case keyword => exact ⟨t, by rw [hj.getElem?_eq, hdrop]; rfl, ht, hof⟩
  case stop =>
    obtain ⟨r, hr, hl⟩ := exists_formulaRun_of_ofKeyword? hn
    obtain ⟨hall, hinner⟩ := tokens_of_tokenize d h
    have hagrees := agrees (c := ⟨d, text.toList⟩) hinner (List.drop_suffix (k + 1) all.dropLast)
    rw [← hall] at hagrees
    have hend := hagrees.formulaEnd (some n)
    rw [hi.index_eq, hr, Option.map_some, Option.map_some, hl, hj.index_eq] at hend
    exact ⟨r.text, hend⟩
  case formula =>
    intro start
    obtain ⟨r, hr, hcases⟩ := exists_leads_formula h hi hn start
    have htake : (all.drop (k + 1)).take n = (all.dropLast.drop (k + 1)).take n := by
      rw [hi.drop_eq, List.take_append_of_le_length hle]
    rw [htake]
    refine ⟨r, fun j x => ⟨hr.unique, ?_⟩, hcases⟩
    rintro ⟨rfl, rfl⟩
    exact hr
  case argument => exact fun _ _ _ _ => leads_formulaOfSelector_iff h hi hn

/-- The keyword in the parentheses is passed over. They are no formula, and are read up to the other
keyword all the same. -/
theorem split_behind_parens :
    let d : Dialect :=
      ⟨.insert .empty "nth" (.required .formulaOfSelector), .empty, .accept, .accept, {}, {}⟩
    let all : List Token := [⟨.colon, ":", 0⟩, ⟨.ident, "nth", 1⟩, ⟨.leftParen, "(", 4⟩,
      ⟨.leftParen, "(", 5⟩, ⟨.whitespace, " ", 6⟩, ⟨.ident, "of", 7⟩, ⟨.rightParen, ")", 9⟩,
      ⟨.whitespace, " ", 10⟩, ⟨.ident, "OF", 11⟩, ⟨.whitespace, " ", 13⟩, ⟨.ident, "a", 14⟩,
      ⟨.rightParen, ")", 15⟩, ⟨.endOfInput, "", 16⟩]
    tokenize ":nth(( of) OF a)" = .ok all ∧
      ofKeyword? .leftParen 0 (all.dropLast.drop 3) = some 5 ∧
      d.SplitAt ":nth(( of) OF a)" all 3 5 ∧
      d.parse ":nth(( of) OF a)" = .error (.malformed (.invalidFormula "( of)") 5) := by
  intro d all
  have h : tokenize ":nth(( of) OF a)" = .ok all := by cbv
  have hn : ofKeyword? .leftParen 0 (all.dropLast.drop 3) = some 5 := by cbv
  exact ⟨h, hn, split_of_keyword d (k := 2) h rfl rfl hn, by cbv⟩

end

end Dialect
end CssSelector
