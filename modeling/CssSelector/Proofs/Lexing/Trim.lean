import CssSelector.Proofs.Lexing.Cut
import CssSelector.Proofs.Run
import CssSelector.Proofs.Scan.Trim

set_option autoImplicit false

namespace CssSelector

open Text

namespace Text

theorem append_inj_of_byteSize {xs ys us vs : List Char} (h : xs ++ ys = us ++ vs)
    (hs : byteSize xs = byteSize us) : xs = us ∧ ys = vs := by
  have hsplit := splitAt?_append xs ys
  rw [h, hs, splitAt?_append] at hsplit
  exact ⟨congrArg Prod.fst (Option.some.inj hsplit).symm,
    congrArg Prod.snd (Option.some.inj hsplit).symm⟩

theorem exists_of_byteSize_le {xs ys us vs : List Char} (h : xs ++ ys = us ++ vs)
    (hle : byteSize xs ≤ byteSize us) : ∃ zs, us = xs ++ zs ∧ ys = zs ++ vs := by
  obtain ⟨zs, rfl, rfl⟩ | ⟨zs, rfl, rfl⟩ := List.append_eq_append_iff.1 h
  · exact ⟨zs, rfl, rfl⟩
  · have hnil : zs = [] := by
      by_contra hne
      have hpos := byteSize_pos hne
      rw [byteSize_append] at hle
      omega
    exact ⟨[], by simp [hnil], by simp [hnil]⟩

end Text

namespace Scan
variable {cs : List Char}

theorem getLast?_commentBody (h : closesComment cs) :
    (commentBody cs).spelling.getLast? = some '/' := by
  fun_induction commentBody cs with
  | case1 => rfl
  | case2 c cs hno ih =>
    rw [closesComment.eq_2 _ _ hno] at h
    change (c :: (commentBody cs).spelling).getLast? = _
    rw [List.getLast?_cons, ih h]
    rfl
  | case3 => contradiction

theorem eq_of_mem_getLast?_comments (h : ¬opensComment cs) :
    ∀ c ∈ (comments cs).spelling.getLast?, c = '/' := by
  fun_induction comments cs with
  | case1 cs body ih =>
    rw [opensComment, Bool.or_eq_true, not_or] at h
    obtain ⟨hc, ho⟩ := h
    have hbody : ('/' :: '*' :: body.spelling).getLast? = some '/' := by
      rw [List.getLast?_cons_cons, List.getLast?_cons, getLast?_commentBody (by simpa using hc)]
      rfl
    intro c hm
    change c ∈ ('/' :: '*' :: body.spelling ++ (comments body.rest).spelling).getLast? at hm
    rw [List.getLast?_append, hbody] at hm
    cases hr : (comments body.rest).spelling.getLast? with
    | none => simpa [hr, eq_comm] using hm
    | some d =>
      rw [hr] at hm
      exact ih ho c (by rw [hr]; exact hm)
  | case2 => simp

end Scan

theorem Lexes.eq_nil {n : Nat} {ts : List Token} {us : List Char} (h : Lexes n [] ts us) :
    ts = [] := by
  have hrun : Lexer.run ⟨n, us, false⟩ = ts.map .ok ++ Lexer.run ⟨n, us, false⟩ := h
  simpa using hrun

namespace Lexer

open Scan

section
variable {n : Nat} {cs ds : List Char} {t : Token} {l : Lexer}

theorem eq_nil_of_comments {us : List Char} (hc : ¬opensComment us)
    (hu : (comments us).spelling = cs ++ ds) (hds : ∀ d ∈ ds, isSpace d) : ds = [] := by
  rcases List.eq_nil_or_concat ds with rfl | ⟨ds, d, rfl⟩
  · rfl
  · have hslash := eq_of_mem_getLast?_comments hc d (by simp [hu])
    have hspace := hds d (by simp)
    rw [hslash] at hspace
    contradiction

theorem exists_token_of_step {us : List Char} (h : step ⟨n, us, false⟩ = (.ok t, l))
    (ht : t.kind ≠ .endOfInput) :
    ∃ s, token (comments us).rest = .ok s ∧
      t = ⟨s.value.1, s.value.2, n + byteSize (comments us).spelling⟩ ∧ s.rest = l.input ∧
      (comments us).spelling ++ (s.spelling ++ l.input) = us ∧ ¬opensComment us ∧
      ¬opensEscape (comments us).spelling := by
  obtain ⟨s, hs, rfl, rfl⟩ := exists_of_step h
  have hclosed : ¬opensComment us := by
    intro hopen
    rw [rest_comments hopen] at hs
    cases hs
    exact ht rfl
  refine ⟨s, hs, rfl, rfl, ?_, hclosed, not_opensEscape_of_getLast? fun hm => ?_⟩
  · exact (congrArg _ (spelling_token hs)).trans (spelling_comments us)
  · exact absurd (eq_of_mem_getLast?_comments hclosed _ hm) (by decide)

theorem not_opensEscape_of_step {us : List Char} (h : step ⟨n, us, false⟩ = (.ok t, l))
    (ht : t.kind ≠ .endOfInput) (hus : us = cs ++ l.input) : ¬opensEscape cs := by
  obtain ⟨s, hs, -, -, hsplit, -, hescape⟩ := exists_token_of_step h ht
  rw [← List.append_assoc, hus] at hsplit
  rw [← List.append_cancel_right hsplit, ← hus, opensEscape_append hescape]
  exact not_opensEscape_token hs

theorem lexes_trimEnd_of_step {us : List Char} (h : step ⟨n, us, false⟩ = (.ok t, l))
    (ht : t.kind ≠ .endOfInput) (hus : us = cs ++ (ds ++ l.input)) (hds : ∀ d ∈ ds, isSpace d)
    (hlast : ∀ x ∈ cs.getLast?, ¬isSpace x) (ho : ¬opensEscape cs) :
    t.kind = .whitespace ∧ Lexes n cs [] [] ∨ Lexes n cs [t] [] := by
  obtain ⟨s, hs, rfl, hrest, hsplit, hclosed, hescape⟩ := exists_token_of_step h ht
  -- the white space is all of the token, or its end
  obtain ⟨as, rfl, hspelling⟩ : ∃ as, cs = (comments us).spelling ++ as ∧ s.spelling = as ++ ds := by
    have hfront : (comments us).spelling ++ s.spelling = cs ++ ds :=
      List.append_cancel_right (by rw [List.append_assoc, hsplit, List.append_assoc, ← hus])
    obtain ⟨as, hcs, hspelling⟩ | ⟨bs, hcomments, hbs⟩ := List.append_eq_append_iff.1 hfront
    · exact ⟨as, hcs, hspelling⟩
    · have hnil := eq_nil_of_comments hclosed hcomments fun d hd => hds d (by simp [hbs, hd])
      rw [hnil, List.append_nil] at hcomments
      rw [hnil, List.nil_append] at hbs
      exact ⟨[], by simp [hcomments], by simp [hbs]⟩
  have htext := spelling_token hs
  rw [hspelling, List.append_assoc] at htext
  rcases as with _ | ⟨a, as⟩
  · left
    rw [List.append_nil]
    refine ⟨?_, lexes_comments h (.inl rfl)⟩
    have hne := spelling_token_ne_nil hs ht
    rw [hspelling, List.nil_append] at hne
    obtain ⟨d, ds, rfl⟩ := List.exists_cons_of_ne_nil hne
    rw [← htext, List.nil_append, List.cons_append, token_space (hds d List.mem_cons_self),
      Except.ok.injEq] at hs
    exact congrArg (fun s => s.value.1) hs.symm
  · right
    rw [opensEscape_append hescape] at ho
    rw [List.getLast?_append_of_ne_nil _ (by simp)] at hlast
    have htoken := token_trim (by rw [htext, hs, ← hspelling]) (by simp) hlast hds ho
    have hword : Lexes (n + byteSize (comments us).spelling) (a :: as)
        [⟨s.value.1, s.value.2, n + byteSize (comments us).spelling⟩] [] :=
      .token ht (by rwa [List.append_nil])
    exact (lexes_comments h (.inr (.inl ht))).append hword

end

section
variable {n : Nat} {cs ds rest : List Char} {xs after : List Token} {c : Token}

theorem exists_trimEnd (h : run ⟨n, cs ++ (ds ++ rest), false⟩ = (xs ++ c :: after).map .ok)
    (hpos : c.position = n + byteSize (cs ++ ds)) (hc : c.kind ≠ .endOfInput)
    (hds : ∀ d ∈ ds, isSpace d) (hlast : ∀ x ∈ cs.getLast?, ¬isSpace x) (ho : ¬opensEscape cs) :
    ∃ ys ws, xs = ys ++ ws ∧ Parse.Spaces ws ∧ Lexes n cs ys [] := by
  induction xs generalizing n cs ds with
  | nil =>
    obtain ⟨l, hstep, -⟩ := exists_of_run_cons (by simp) h
    obtain ⟨s, -, rfl, -, htext, hclosed, -⟩ := exists_token_of_step hstep hc
    have hsplit : (comments (cs ++ (ds ++ rest))).spelling ++ (s.spelling ++ l.input) =
        (cs ++ ds) ++ rest := by rw [htext, List.append_assoc]
    obtain ⟨hcomments, -⟩ := append_inj_of_byteSize hsplit (Nat.add_left_cancel hpos)
    have hlex : Lexes n (comments (cs ++ (ds ++ rest))).spelling [] [] :=
      lexes_comments hstep (.inl rfl)
    rw [hcomments, eq_nil_of_comments hclosed hcomments hds, List.append_nil] at hlex
    exact ⟨[], [], rfl, .nil, hlex⟩
  | cons t xs ih =>
    obtain ⟨l, hstep, hrun⟩ := exists_of_run_cons (by simp) h
    obtain ⟨hf, ht⟩ := kind_ne_of_run_cons hstep hrun (by simp)
    obtain ⟨front, hfront, hoff, hlex⟩ := exists_lexes_of_step hstep ht
    obtain ⟨m, input, f⟩ := l
    obtain rfl : f = false := by simpa using hf
    obtain rfl : m = n + byteSize front := hoff
    dsimp only at hfront hlex
    obtain ⟨us, rfl, rfl⟩ | ⟨bs, rfl, hinput⟩ := List.append_eq_append_iff.1 hfront.symm
    · -- the token stands in front of the white space
      rw [opensEscape_append (not_opensEscape_of_step hstep ht hfront)] at ho
      obtain ⟨ys, ws, rfl, hws, hys⟩ := ih hrun
        (by rw [hpos, List.append_assoc, byteSize_append, Nat.add_assoc]) hds
        (fun x hx => hlast x (by rw [List.getLast?_append, Option.mem_def.1 hx]; rfl)) ho
      have hback : us ≠ ['\\'] := by
        rintro rfl
        exact ho (by decide)
      have hfirst := hlex us [] (List.prefix_append _ _) hback breaks_nil.toStops fun _ => breaks_nil.space
      exact ⟨t :: ys, ws, rfl, hws, hfirst.append (by simpa using hys)⟩
    · -- it takes white space, and all that is left is white space
      have hle : byteSize bs ≤ byteSize ds := by
        obtain ⟨zs, -, -, hplace⟩ := run_placed hrun c (by simp)
        simp only [byteSize_append] at hpos hplace
        omega
      obtain ⟨us, rfl, rfl⟩ := exists_of_byteSize_le hinput.symm hle
      rw [← List.nil_append (us ++ rest)] at hrun
      obtain ⟨ys, ws, rfl, hws, hys⟩ := ih hrun
        (by simp [hpos, Nat.add_assoc]) (fun d hd => hds d (List.mem_append_right _ hd)) (by simp)
        (by decide)
      obtain rfl := hys.eq_nil
      have hbs : ∀ d ∈ bs, isSpace d := fun d hd => hds d (List.mem_append_left _ hd)
      obtain ⟨hspace, hnone⟩ | hone :=
        lexes_trimEnd_of_step hstep ht (by rw [List.append_assoc]) hbs hlast ho
      · exact ⟨[], t :: ws, rfl, List.forall_mem_cons.2 ⟨hspace, hws⟩, hnone⟩
      · exact ⟨[t], ws, rfl, hws, hone⟩

theorem exists_trimStart {us : List Char} (h : run ⟨n, ds ++ us, false⟩ = xs.map .ok)
    (hds : ∀ d ∈ ds, isSpace d) (hus : ∀ u ∈ us.head?, ¬isSpace u) :
    ∃ ws ys, xs = ws ++ ys ∧ Parse.Spaces ws ∧
      run ⟨n + byteSize ds, us, false⟩ = ys.map .ok := by
  by_cases hne : ds = []
  · subst hne
    exact ⟨[], xs, rfl, .nil, h⟩
  · have hw := Lexes.token (n := n) (by decide) (token_spaces hne hds hus)
    rw [Lexes, h, List.map_singleton, List.singleton_append] at hw
    obtain ⟨w, ys, rfl, hfirst, hys⟩ := List.map_eq_cons_iff.1 hw
    cases hfirst
    exact ⟨[⟨.whitespace, " ", n⟩], ys, rfl, by simp [Parse.Spaces], hys.symm⟩

/-- A text without white space at its ends has the tokens that it has with it, up to white space at
both ends. -/
theorem exists_trim {es : List Char}
    (h : run ⟨n, ds ++ (cs ++ (es ++ rest)), false⟩ = (xs ++ c :: after).map .ok)
    (hpos : c.position = n + byteSize (ds ++ (cs ++ es))) (hc : c.kind ≠ .endOfInput)
    (hspace : c.kind ≠ .whitespace) (hds : ∀ d ∈ ds, isSpace d) (hes : ∀ e ∈ es, isSpace e)
    (hhead : ∀ x ∈ cs.head?, ¬isSpace x) (hlast : ∀ x ∈ cs.getLast?, ¬isSpace x)
    (ho : ¬opensEscape cs) :
    ∃ ws ys vs, xs = ws ++ (ys ++ vs) ∧ Parse.Spaces ws ∧ Parse.Spaces vs ∧
      Lexes (n + byteSize ds) cs ys [] := by
  rcases cs with _ | ⟨x, cs⟩
  · -- nothing is left, and all of the white space stands at the end
    rw [List.nil_append, ← List.append_assoc, ← List.nil_append (ds ++ es ++ rest)] at h
    rw [List.nil_append] at hpos
    have hall : ∀ d ∈ ds ++ es, isSpace d :=
      fun d hd => (List.mem_append.1 hd).elim (hds d) (hes d)
    obtain ⟨ys, vs, rfl, hvs, hys⟩ := exists_trimEnd h hpos hc hall (by simp) ho
    obtain rfl := hys.eq_nil
    exact ⟨[], [], vs, rfl, .nil, hvs, .nil _ _⟩
  · obtain ⟨ws, zs, hxs, hws, hrun⟩ := exists_trimStart h hds hhead
    obtain ⟨ys, rfl, rfl⟩ : ∃ ys, xs = ws ++ ys ∧ zs = ys ++ c :: after := by
      obtain ⟨us, rfl, hus⟩ | hys := List.append_eq_append_iff.1 hxs
      · rcases us with _ | ⟨u, us⟩
        · exact ⟨[], by simp, hus.symm⟩
        · -- the token behind the text is no white space
          obtain ⟨rfl, -⟩ := List.cons.inj hus
          exact absurd (hws c (by simp)) hspace
      · exact hys
    obtain ⟨ys, vs, rfl, hvs, hys⟩ := exists_trimEnd hrun
      (by rw [hpos, byteSize_append, Nat.add_assoc]) hc hes hlast ho
    exact ⟨ws, ys, vs, rfl, hws, hvs, hys⟩

end
end Lexer
end CssSelector
