import CssSelector.Proofs.Lexing.Cut

/-!
The first error of a text. Tokens are told by looking ahead, but never into what is no token: the
text before an error is lexed by itself to the tokens that the lexer hands out before the error, and
behind the error it hands out nothing (`tokenize_eq_error_iff`).
-/

set_option autoImplicit false

namespace CssSelector

open Text

/-- What stands in front of a text in which the fault is found. -/
def LexError.Fault.Heads (f : LexError.Fault) (cs : List Char) : Prop :=
  match f with
  | .unterminatedString => cs.head? = some '"' ∨ cs.head? = some '\''
  | .invalidCharacter c => cs.head? = some c

namespace Scan

theorem heads_of_token {cs : List Char} {f : LexError.Fault} (h : token cs = .error f) :
    f.Heads cs := by
  unfold token at h
  split at h
  · cases h
  repeat' split at h
  all_goals cases h
  · next hquote _ _ => simpa [LexError.Fault.Heads] using hquote
  · rfl

end Scan

namespace Lexer
variable {l m : Lexer} {x : Except LexError Token} {xs : List (Except LexError Token)}

/-- The items that a lexer hands out one after another, and the lexer behind them. -/
inductive Yields : Lexer → List (Except LexError Token) → Lexer → Prop
  | nil {l : Lexer} : Yields l [] l
  | cons {l k m : Lexer} {x : Except LexError Token} {xs : List (Except LexError Token)} :
      l.next? = some (x, k) → Yields k xs m → Yields l (x :: xs) m

theorem next?_eq_none_iff : l.next? = none ↔ l.finished := by
  rw [next?]
  split
  case isTrue h => simp [h]
  case isFalse h => simp [h]

theorem next?_of_not_finished (h : ¬l.finished) : l.next? = some l.step := if_neg h

theorem yields_iff_run : (∃ m, l.Yields xs m ∧ m.next? = none) ↔ l.run = xs := by
  constructor
  · rintro ⟨m, hy, hm⟩
    induction hy with
    | nil => exact run_of_finished (next?_eq_none_iff.1 hm)
    | @cons l k m x xs hl _ ih =>
      have hf : ¬l.finished := fun hf => by simp [next?_eq_none_iff.2 hf] at hl
      rw [next?_of_not_finished hf, Option.some.injEq] at hl
      rw [run, if_neg hf, hl, ih hm]
  · rintro rfl
    induction l using Lexer.run.induct with
    | case1 l hl =>
      rw [run_of_finished hl]
      exact ⟨l, .nil, next?_eq_none_iff.2 hl⟩
    | case2 l hl ih =>
      obtain ⟨m, hy, hm⟩ := ih
      rw [run, if_neg hl]
      exact ⟨m, .cons (next?_of_not_finished hl) hy, hm⟩

theorem run_cases (l : Lexer) :
    (∃ ts : List Token, l.run = ts.map .ok) ∨
      ∃ (ts : List Token) (e : LexError), l.run = ts.map .ok ++ [.error e] := by
  induction l using Lexer.run.induct with
  | case1 l hl => exact .inl ⟨[], run_of_finished hl⟩
  | case2 l hl ih =>
    rw [run, if_neg hl]
    cases hx : l.step.1 with
    | ok t =>
      obtain ⟨ts, hts⟩ | ⟨ts, e, hts⟩ := ih
      · exact .inl ⟨t :: ts, by rw [hts, List.map_cons]⟩
      · exact .inr ⟨t :: ts, e, by rw [hts, List.map_cons, List.cons_append]⟩
    | error e =>
      have hf : l.step.2.finished := by
        unfold step at hx ⊢
        dsimp only at hx ⊢
        split at hx
        case h_1 => cases hx
        case h_2 => rfl
      exact .inr ⟨[], e, by rw [run_of_finished hf]; rfl⟩

theorem exists_of_step_error {n : Nat} {cs : List Char} {e : LexError}
    (h : (step ⟨n, cs, false⟩).1 = .error e) :
    Scan.token (Scan.comments cs).rest = .error e.fault ∧
      e.position = n + byteSize (Scan.comments cs).spelling := by
  unfold step at h
  dsimp only at h
  split at h
  case h_1 => cases h
  case h_2 fault hf =>
    cases h
    exact ⟨hf, rfl⟩

theorem not_finished_of_run (h : l.run = xs) (hxs : xs ≠ []) : ¬l.finished := by
  intro hf
  rw [run_of_finished hf] at h
  exact hxs h.symm

theorem exists_cut_of_error {e : LexError} (ts : List Token)
    (h : l.run = ts.map .ok ++ [.error e]) :
    ∃ pre post, l.input = pre ++ post ∧ e.position = l.offset + byteSize pre ∧
      Scan.token post = .error e.fault ∧ Lexes l.offset pre ts [] := by
  induction ts generalizing l with
  | nil =>
    have hf := not_finished_of_run h (by simp)
    obtain ⟨n, cs, f⟩ := l
    obtain rfl : f = false := by simpa using hf
    rw [run, if_neg hf] at h
    obtain ⟨htoken, hpos⟩ := exists_of_step_error (List.cons.inj h).1
    exact ⟨_, _, (Scan.spelling_comments cs).symm, hpos, htoken,
      .of_comments_nil (Scan.comments_comments cs) n⟩
  | cons t ts ih =>
    have hf := not_finished_of_run h (by simp)
    obtain ⟨n, cs, f⟩ := l
    obtain rfl : f = false := by simpa using hf
    rw [run, if_neg hf, List.map_cons, List.cons_append, List.cons.injEq] at h
    obtain ⟨hfirst, hrun⟩ := h
    have hstep : step ⟨n, cs, false⟩ = (.ok t, (step ⟨n, cs, false⟩).2) := Prod.ext hfirst rfl
    obtain ⟨-, -, -, -, -, hfin, -⟩ := step_eq_ok hstep
    have ht : t.kind ≠ .endOfInput := by
      simpa [hfin] using not_finished_of_run hrun (by simp)
    obtain ⟨front, hcs, hoffset, hfront⟩ := exists_lexes_of_step hstep ht
    obtain ⟨pre, post, hin, hpos, htoken, hlex⟩ := ih hrun
    refine ⟨front ++ pre, post, ?_, ?_, htoken, ?_⟩
    · rw [List.append_assoc, ← hin, ← hcs]
    · rw [hpos, hoffset, byteSize_append, Nat.add_assoc]
    · rw [hoffset] at hlex
      have hback : pre ≠ ['\\'] := hlex.ne_backslash
      refine Lexes.append (hfront pre [] ⟨post, hin.symm⟩ hback Scan.breaks_nil.toStops ?_) hlex
      intro c _ hc
      contradiction

end Lexer

section
variable {text : String} {e : LexError}

theorem tokenize_eq_error_iff_run :
    tokenize text = .error e ↔
      ∃ ts : List Token, (Lexer.ofString text).run = ts.map .ok ++ [.error e] := by
  constructor
  · intro h
    obtain ⟨ts, hts⟩ | ⟨ts, e', hts⟩ := (Lexer.ofString text).run_cases
    · rw [tokenize, hts, mapM_map_ok] at h
      cases h
    · rw [tokenize, hts, mapM_map_ok_append] at h
      cases h
      exact ⟨ts, hts⟩
  · rintro ⟨ts, hts⟩
    rw [tokenize, hts, mapM_map_ok_append]
    rfl

/-- Lexing fails at a character that is found fault with. The text before it is lexed by itself, and
the lexer hands out its tokens and then the error, and behind that nothing. -/
theorem tokenize_eq_error_iff :
    tokenize text = .error e ↔ ∃ pre post ts,
      splitAt? e.position text.toList = some (pre, post) ∧ e.fault.Heads post ∧
      tokenize (String.ofList pre) = .ok (ts ++ [⟨.endOfInput, "", e.position⟩]) ∧
      ∃ m, (Lexer.ofString text).Yields (ts.map .ok ++ [.error e]) m ∧ m.next? = none := by
  rw [tokenize_eq_error_iff_run]
  constructor
  · rintro ⟨ts, hrun⟩
    obtain ⟨pre, post, htext, hpos, htoken, hlex⟩ := Lexer.exists_cut_of_error ts hrun
    have hpos : e.position = byteSize pre := by rw [hpos, Lexer.ofString, Nat.zero_add]
    have hlex : Lexes 0 (String.ofList pre).toList ts [] := by rwa [String.toList_ofList]
    have htokens := hlex.tokenize_eq
    rw [String.toList_ofList, ← hpos] at htokens
    refine ⟨pre, post, ts, ?_, Scan.heads_of_token htoken, htokens, Lexer.yields_iff_run.2 hrun⟩
    rw [hpos, show text.toList = pre ++ post from htext, splitAt?_append]
  · rintro ⟨pre, post, ts, -, -, -, hyields⟩
    exact ⟨ts, Lexer.yields_iff_run.1 hyields⟩

/-- Behind the number sign stands nothing that a name could be made of. The fault is found at the
sign, and not at the backslash. -/
example :
    tokenize "a/**/#\\\n" = .error ⟨.invalidCharacter '#', 5⟩ ∧
      tokenize "a/**/" = .ok [⟨.ident, "a", 0⟩, ⟨.endOfInput, "", 5⟩] := by
  cbv

end
end CssSelector
