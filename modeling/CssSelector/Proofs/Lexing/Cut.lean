import CssSelector.Proofs.Lexing
import CssSelector.Proofs.Scan.Cut

set_option autoImplicit false

namespace CssSelector

open Text

namespace Scan
variable {cs us : List Char}

theorem closesComment_append (h : closesComment cs) (us : List Char) : closesComment (cs ++ us) := by
  fun_induction closesComment cs with
  | case1 => rfl
  | case2 c cs hno ih =>
    rw [List.cons_append]
    unfold closesComment
    split
    case h_1 => rfl
    case h_2 d ds _ e =>
      obtain ⟨rfl, rfl⟩ := List.cons.inj e
      exact ih h
    case h_3 e => cases e
  | case3 => contradiction

theorem commentBody_spelling (h : closesComment cs) :
    closesComment (commentBody cs).spelling ∧
      commentBody (commentBody cs).spelling = ⟨(), (commentBody cs).spelling, []⟩ := by
  fun_induction commentBody cs with
  | case1 => exact ⟨rfl, rfl⟩
  | case2 c cs hno ih =>
    have hno' : ∀ ds, c = '*' → (commentBody cs).spelling = '/' :: ds → False := by
      intro ds hc hds
      refine hno (ds ++ (commentBody cs).rest) hc ?_
      rw [← List.cons_append, ← hds, spelling_commentBody]
    rw [closesComment.eq_2 _ _ hno] at h
    obtain ⟨hcloses, hbody⟩ := ih h
    change closesComment (c :: (commentBody cs).spelling) ∧
      commentBody (c :: (commentBody cs).spelling) = _
    rw [closesComment.eq_2 _ _ hno', commentBody.eq_2 _ _ hno', hbody]
    exact ⟨hcloses, rfl⟩
  | case3 => contradiction

theorem rest_commentBody (h : ¬closesComment cs) : (commentBody cs).rest = [] := by
  fun_induction commentBody cs with
  | case1 => exact absurd rfl h
  | case2 c cs hno ih =>
    rw [closesComment.eq_2 _ _ hno] at h
    exact ih h
  | case3 => rfl

theorem comments_spelling (h : ¬opensComment cs) :
    comments (comments cs).spelling = ⟨(), (comments cs).spelling, []⟩ ∧
      ¬opensComment (comments cs).spelling := by
  fun_induction comments cs with
  | case1 cs body ih =>
    rw [opensComment, Bool.or_eq_true, not_or] at h
    obtain ⟨hc, ho⟩ := h
    obtain ⟨hcloses, hbody⟩ := commentBody_spelling (by simpa using hc)
    obtain ⟨hcomments, hopen⟩ := ih ho
    have hall := commentBody_append hcloses (comments body.rest).spelling
    rw [hbody, before_mk, List.nil_append] at hall
    have hcloses' := closesComment_append hcloses (comments body.rest).spelling
    change comments ('/' :: '*' :: (body.spelling ++ (comments body.rest).spelling)) = _ ∧
      ¬opensComment ('/' :: '*' :: (body.spelling ++ (comments body.rest).spelling))
    rw [comments, opensComment, hall, hcomments, hcloses']
    exact ⟨rfl, by simpa using hopen⟩
  | case2 => exact ⟨by simp [comments], by simp [opensComment]⟩

theorem rest_comments (h : opensComment cs) : (comments cs).rest = [] := by
  fun_induction comments cs with
  | case1 cs body ih =>
    rw [opensComment, Bool.or_eq_true] at h
    rcases h with hc | ho
    · have hbody : body.rest = [] := rest_commentBody (by simpa using hc)
      simp [hbody, after, comments]
    · exact ih ho
  | case2 cs hno =>
    rw [opensComment.eq_2 _ hno] at h
    contradiction

theorem comments_comments (cs : List Char) :
    comments (comments cs).spelling = ⟨(), (comments cs).spelling, []⟩ := by
  by_cases h : opensComment cs
  · have hs := spelling_comments cs
    rw [rest_comments h, List.append_nil] at hs
    have hcs : comments cs = ⟨(), (comments cs).spelling, (comments cs).rest⟩ := rfl
    rw [rest_comments h] at hcs
    rw [hs]
    rwa [hs] at hcs
  · exact (comments_spelling h).1

theorem breaks_nil : Breaks [] := by refine ⟨⟨?_, ?_⟩, ?_⟩ <;> simp

/-- A token comes out the same when the text behind it is cut short, and another one put there that
cannot be taken for a part of it. -/
theorem token_swap {pre : List Char} {s : Scan (Token.Kind × String)} (h : token cs = .ok s)
    (hk : s.value.1 ≠ .endOfInput) (hp : pre <+: s.rest) (hne : pre ≠ ['\\']) (hu : Stops us)
    (hs : pre = [] → ∀ c ∈ us.head?, ¬isSpace c) :
    token (s.spelling ++ (pre ++ us)) = .ok ⟨s.value, s.spelling, pre ++ us⟩ := by
  have hnil : s.spelling ++ pre ≠ [] :=
    List.append_ne_nil_of_left_ne_nil (spelling_token_ne_nil h hk) pre
  rw [← List.append_assoc, token_append hu hnil (token_cut h hp hne) hne fun ho => hs ho.1]
  rfl

end Scan

namespace Lexes
variable {cs us : List Char}

theorem of_comments (hc : ¬Scan.opensComment cs) (hr : (Scan.comments cs).rest = []) (n : Nat) :
    Lexes n cs [] us := by
  rw [Lexes, Lexer.run, if_neg (by simp), Lexer.run.eq_1 ⟨n + byteSize cs, us, false⟩,
    if_neg (by simp), Lexer.step_append_of_comments hc hr]
  rfl

theorem of_comments_nil (h : Scan.comments cs = ⟨(), cs, []⟩) (n : Nat) : Lexes n cs [] [] := by
  have hstep : Lexer.step ⟨n, cs, false⟩ = Lexer.step ⟨n + byteSize cs, [], false⟩ := by
    simp [Lexer.step, h, Scan.comments, byteSize]
  rw [Lexes, List.append_nil, Lexer.run, if_neg (by simp), Lexer.run.eq_1 ⟨n + byteSize cs, [], false⟩,
    if_neg (by simp), hstep]
  rfl

theorem run_nil (n : Nat) : Lexer.run ⟨n, [], false⟩ = [.ok ⟨.endOfInput, "", n⟩] := by
  have hstep : Lexer.step ⟨n, [], false⟩ = (.ok ⟨.endOfInput, "", n⟩, ⟨n, [], true⟩) := by
    simp [Lexer.step, Scan.comments, Scan.token, byteSize]
  rw [Lexer.run, if_neg (by simp), hstep, Lexer.run_of_finished rfl]

theorem ne_backslash {n : Nat} {ts : List Token} (h : Lexes n cs ts []) : cs ≠ ['\\'] := by
  rw [Lexes, List.append_nil, run_nil] at h
  let e : Token := ⟨.endOfInput, "", n + byteSize cs⟩
  have hrun : Lexer.run ⟨n, cs, false⟩ = (ts ++ [e]).map .ok := by rw [h, List.map_append]; rfl
  exact Lexer.input_ne_of_run hrun (by simp)

end Lexes

namespace Lexer

theorem exists_of_step {n : Nat} {cs : List Char} {t : Token} {l : Lexer}
    (h : step ⟨n, cs, false⟩ = (.ok t, l)) :
    ∃ s, Scan.token (Scan.comments cs).rest = .ok s ∧
      t = ⟨s.value.1, s.value.2, n + byteSize (Scan.comments cs).spelling⟩ ∧
      l = ⟨t.position + byteSize s.spelling, s.rest, s.value.1 = .endOfInput⟩ := by
  unfold step at h
  dsimp only at h
  split at h
  next s hs =>
    cases h
    exact ⟨s, hs, rfl, rfl⟩
  next => cases h

theorem exists_of_run_cons {l : Lexer} {t : Token} {ts : List Token} (hf : ¬l.finished)
    (h : l.run = (t :: ts).map .ok) : ∃ l', l.step = (.ok t, l') ∧ l'.run = ts.map .ok := by
  rw [run, if_neg hf, List.map_cons, List.cons.injEq] at h
  exact ⟨_, Prod.ext h.1 rfl, h.2⟩

theorem kind_ne_of_run_cons {l l' : Lexer} {t : Token} {ts : List Token} (h : l.step = (.ok t, l'))
    (hr : l'.run = ts.map .ok) (hts : ts ≠ []) : ¬l'.finished ∧ t.kind ≠ .endOfInput := by
  have hf : ¬l'.finished := by
    intro hf
    rw [run_of_finished hf] at hr
    exact hts (List.map_eq_nil_iff.1 hr.symm)
  obtain ⟨-, -, -, -, -, hfin, -⟩ := step_eq_ok h
  exact ⟨hf, by simpa [hfin] using hf⟩

theorem step_behind_comments {n : Nat} {cs : List Char} {t : Token} {l : Lexer}
    (h : step ⟨n, cs, false⟩ = (.ok t, l)) :
    step ⟨t.position, (Scan.comments cs).rest, false⟩ = (.ok t, l) := by
  obtain ⟨s, hs, rfl, rfl⟩ := exists_of_step h
  have hcomments := Scan.comments_of_head (Scan.head?_ne_of_token hs)
  simp [step, hcomments, hs, byteSize]

theorem lexes_comments {n : Nat} {cs us : List Char} {t : Token} {l : Lexer}
    (h : step ⟨n, cs, false⟩ = (.ok t, l))
    (hc : us = [] ∨ t.kind ≠ .endOfInput ∨ ¬endsInComment ⟨n, cs, false⟩) :
    Lexes n (Scan.comments cs).spelling [] us := by
  obtain ⟨s, hs, ht, -⟩ := exists_of_step h
  by_cases hopen : Scan.opensComment cs
  · rw [Scan.rest_comments hopen] at hs
    cases hs
    rcases hc with rfl | hk | hends
    · exact .of_comments_nil (Scan.comments_comments cs) n
    · exact absurd (by rw [ht]) hk
    · rw [endsInComment, if_neg (by simp), hopen] at hends
      exact absurd rfl hends
  · obtain ⟨hcomments, hopen⟩ := Scan.comments_spelling hopen
    exact .of_comments hopen (by rw [hcomments]) n

/-- What is taken for a token, with the comments in front of it, is lexed to that token whatever the
text behind it is cut short to. -/
theorem exists_lexes_of_step {n : Nat} {cs : List Char} {t : Token} {l : Lexer}
    (h : step ⟨n, cs, false⟩ = (.ok t, l)) (ht : t.kind ≠ .endOfInput) :
    ∃ front, cs = front ++ l.input ∧ l.offset = n + byteSize front ∧
      ∀ pre us, pre <+: l.input → pre ≠ ['\\'] → Scan.Stops us →
        (pre = [] → ∀ c ∈ us.head?, ¬Scan.isSpace c) → Lexes n front [t] (pre ++ us) := by
  obtain ⟨s, hs, rfl, rfl⟩ := exists_of_step h
  refine ⟨(Scan.comments cs).spelling ++ s.spelling, ?_, by simp [Nat.add_assoc],
    fun pre us hp hne hu hspace => ?_⟩
  · rw [List.append_assoc, Scan.spelling_token hs, Scan.spelling_comments]
  · exact (lexes_comments h (.inr (.inl ht))).append
      (.token ht (Scan.token_swap hs ht hp hne hu hspace))

/-- What stands before a token ends where the token starts; it is lexed as before in front of
another text, which must not go on with its last token. -/
theorem exists_cut {l : Lexer} (before : List Token) {after : List Token} {t : Token}
    (h : l.run = (before ++ t :: after).map .ok) (hf : ¬l.finished) :
    ∃ pre post, l.input = pre ++ post ∧ t.position = l.offset + byteSize pre ∧
      run ⟨t.position, post, false⟩ = (t :: after).map .ok ∧
      ∀ us, Scan.Breaks us → (us = [] ∨ t.kind ≠ .endOfInput ∨ ¬l.endsInComment) →
        Lexes l.offset pre before us := by
  induction before generalizing l with
  | nil =>
    obtain ⟨n, cs, f⟩ := l
    obtain rfl : f = false := by simpa using hf
    obtain ⟨l', hstep, hrun⟩ := exists_of_run_cons hf h
    obtain ⟨s, -, ht, -⟩ := exists_of_step hstep
    refine ⟨(Scan.comments cs).spelling, (Scan.comments cs).rest, (Scan.spelling_comments cs).symm,
      by rw [ht], ?_, fun us _ hc => lexes_comments hstep hc⟩
    rw [run, if_neg (by simp), step_behind_comments hstep, hrun]
    rfl
  | cons b before ih =>
    obtain ⟨n, cs, f⟩ := l
    obtain rfl : f = false := by simpa using hf
    obtain ⟨l', hstep, hrun⟩ := exists_of_run_cons hf h
    have hends : l'.endsInComment → endsInComment ⟨n, cs, false⟩ := by
      intro hends
      rw [endsInComment, if_neg hf, hstep, hends, Bool.or_true]
    obtain ⟨hf', hb⟩ := kind_ne_of_run_cons hstep hrun (by simp)
    obtain ⟨front, hcs, hoffset, hfront⟩ := exists_lexes_of_step hstep hb
    obtain ⟨pre, post, hin, hpos, hrest, hlex⟩ := ih hrun hf'
    refine ⟨front ++ pre, post, by rw [List.append_assoc, ← hin, ← hcs], ?_, hrest,
      fun us hu hc => ?_⟩
    · rw [hpos, hoffset, byteSize_append, Nat.add_assoc]
    · have hback := (hlex [] Scan.breaks_nil (.inl rfl)).ne_backslash
      have hlast := hlex us hu (hc.imp_right (Or.imp_right fun h hl => h (hends hl)))
      rw [hoffset] at hlast
      exact (hfront pre us ⟨post, hin.symm⟩ hback hu.toStops fun _ => hu.space).append hlast

end Lexer
end CssSelector
