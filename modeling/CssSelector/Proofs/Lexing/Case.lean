import CssSelector.Proofs.Lexing.Cut
import CssSelector.Proofs.Scan.Case

set_option autoImplicit false

namespace CssSelector

open Text

namespace Scan
variable {cs ds : List Char}

theorem commentBody_of_sameLetters (h : SameLetters cs ds) :
    SameLetters (commentBody cs).spelling (commentBody ds).spelling ∧
      SameLetters (commentBody cs).rest (commentBody ds).rest := by
  fun_induction commentBody cs generalizing ds with
  | case1 cs =>
    obtain ⟨ds, rfl, h₁⟩ := h.exists_of_mark (by decide)
    obtain ⟨ds, rfl, h₂⟩ := h₁.exists_of_mark (by decide)
    rw [commentBody]
    exact ⟨.refl _, h₂⟩
  | case2 c cs hno ih =>
    obtain ⟨d, ds, rfl, hd, h'⟩ := h.exists_of_cons
    have hno' : ∀ xs, d = '*' → ds = '/' :: xs → False := by
      rintro xs rfl rfl
      obtain ⟨ys, rfl, -⟩ := h'.symm.exists_of_mark (by decide)
      exact hno ys (eq_of_toLower_eq hd (by decide)) rfl
    rw [commentBody.eq_2 _ _ hno']
    exact ⟨.cons hd (ih h').1, (ih h').2⟩
  | case3 =>
    obtain rfl := List.forall₂_nil_left_iff.1 h
    exact ⟨.nil, .nil⟩

theorem comments_of_sameLetters (h : SameLetters cs ds) :
    SameLetters (comments cs).spelling (comments ds).spelling ∧
      SameLetters (comments cs).rest (comments ds).rest := by
  fun_induction comments cs generalizing ds with
  | case1 cs =>
    rename_i ih
    obtain ⟨ds, rfl, h₁⟩ := h.exists_of_mark (by decide)
    obtain ⟨ds, rfl, h₂⟩ := h₁.exists_of_mark (by decide)
    obtain ⟨hspelling, hrest⟩ := commentBody_of_sameLetters h₂
    rw [comments]
    exact ⟨.cons rfl (.cons rfl (hspelling.append (ih hrest).1)), (ih hrest).2⟩
  | case2 cs hno =>
    have hno' : ∀ xs, ds = '/' :: '*' :: xs → False := by
      rintro xs rfl
      obtain ⟨ys, rfl, h₁⟩ := h.symm.exists_of_mark (by decide)
      obtain ⟨zs, rfl, -⟩ := h₁.exists_of_mark (by decide)
      exact hno zs rfl
    rw [comments.eq_2 _ hno']
    exact ⟨.nil, h⟩

end Scan

/-- Tokens of the same kind at the same place, with texts that have the same letters. -/
def Token.Alike (t u : Token) : Prop :=
  u.kind = t.kind ∧ fold u.text = fold t.text ∧ u.position = t.position

namespace Lexer

theorem exists_step_of_sameLetters {n : Nat} {cs ds : List Char} {t : Token} {l : Lexer}
    (h : step ⟨n, cs, false⟩ = (.ok t, l)) (hc : SameLetters cs ds) :
    ∃ u input, step ⟨n, ds, false⟩ = (.ok u, { l with input }) ∧ t.Alike u ∧
      SameLetters l.input input := by
  obtain ⟨s, hs, rfl, rfl⟩ := exists_of_step h
  obtain ⟨hspelling, hrest⟩ := Scan.comments_of_sameLetters hc
  obtain ⟨s', hs', hst⟩ := Scan.exists_token_of_sameLetters hrest hs
  refine ⟨⟨s'.value.1, s'.value.2, n + byteSize (Scan.comments cs).spelling⟩, s'.rest, ?_,
    ⟨hst.kind, hst.text, rfl⟩, hst.rest⟩
  unfold step
  dsimp only
  rw [hs', ← hspelling.byteSize_eq]
  dsimp only
  rw [← hst.spelling.byteSize_eq, hst.kind]

theorem exists_run_of_sameLetters {n : Nat} {cs ds : List Char} {finished : Bool} {ts : List Token}
    (h : run ⟨n, cs, finished⟩ = ts.map .ok) (hc : SameLetters cs ds) :
    ∃ us, run ⟨n, ds, finished⟩ = us.map .ok ∧ List.Forall₂ Token.Alike ts us := by
  induction ts generalizing n cs ds finished with
  | nil =>
    have hf : finished := by
      by_contra hf
      rw [run, if_neg hf] at h
      contradiction
    exact ⟨[], run_of_finished hf, .nil⟩
  | cons t ts ih =>
    have hf : finished = false := by
      by_contra hf
      rw [run_of_finished (by simpa using hf)] at h
      contradiction
    subst hf
    obtain ⟨l, hstep, hrun⟩ := exists_of_run_cons (by simp) h
    obtain ⟨u, input, hstep', hu, hinput⟩ := exists_step_of_sameLetters hstep hc
    obtain ⟨us, hus, hall⟩ := ih hrun hinput
    refine ⟨u :: us, ?_, .cons hu hall⟩
    rw [run, if_neg (by simp), hstep']
    exact congrArg (_ :: ·) hus

end Lexer

/-- A text with other letter case has tokens with other letter case. -/
theorem exists_tokenize_of_fold {text text' : String} {ts : List Token}
    (h : tokenize text = .ok ts) (hfold : fold text' = fold text) :
    ∃ us, tokenize text' = .ok us ∧ List.Forall₂ Token.Alike ts us := by
  have hletters : SameLetters text.toList text'.toList :=
    sameLetters_iff.2 (by simpa [fold] using congrArg String.toList hfold.symm)
  obtain ⟨us, hus, hall⟩ := Lexer.exists_run_of_sameLetters (eq_map_ok_of_mapM h) hletters
  refine ⟨us, ?_, hall⟩
  rw [tokenize, Lexer.ofString, hus]
  exact mapM_map_ok us

end CssSelector
