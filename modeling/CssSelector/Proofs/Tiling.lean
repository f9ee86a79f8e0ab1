import CssSelector.Proofs.Lexing.Cut

/-!
Tokens tile the source. The text from the start of a token up to the start of the next one, taken by
itself, is that token and the end of the input, so no token is told by what stands around it, and
nothing of the text is lost (`tiles_of_tokenize`).
-/

set_option autoImplicit false

namespace CssSelector

open Text

namespace Lexer

theorem run_sub (k n : Nat) (cs : List Char) :
    run ⟨n, cs, false⟩ = (run ⟨k + n, cs, false⟩).map (moveItem (· - k)) := by
  have hid : moveItem (· - k) ∘ moveItem (k + ·) = id := by
    funext x
    cases x <;> simp [moveItem, Token.move, LexError.move]
  have hadd := run_add k ⟨n, cs, false⟩
  dsimp only at hadd
  rw [hadd, List.map_map, hid, List.map_id]

end Lexer

theorem Lexes.sub {k n : Nat} {cs us : List Char} {ts : List Token} (h : Lexes (k + n) cs ts us) :
    Lexes n cs (ts.map (Token.move (· - k))) us := by
  rw [Lexes, Lexer.run_sub k, h, List.map_append, Nat.add_assoc, ← Lexer.run_sub, List.map_map,
    List.map_map]
  rfl

theorem Lexes.tokenize_ofList {n : Nat} {cs : List Char} {ts : List Token} (h : Lexes n cs ts []) :
    tokenize (String.ofList cs) =
      .ok (ts.map (Token.move (· - n)) ++ [⟨.endOfInput, "", byteSize cs⟩]) := by
  have hsub : Lexes 0 (String.ofList cs).toList (ts.map (Token.move (· - n))) [] := by
    rw [String.toList_ofList]
    exact h.sub (k := n) (n := 0)
  have htokens := hsub.tokenize_eq
  rwa [String.toList_ofList] at htokens

/-- The tokens of a text, each with the part of the text that it comes from. -/
structure Tiles (text : String) (ts : List Token) : Prop where
  last : ∃ us, ts = us ++ [⟨.endOfInput, "", byteSize text.toList⟩] ∧
    ∀ u ∈ us, u.kind ≠ .endOfInput
  increasing : ts.Pairwise fun t u => t.position < u.position
  boundary : ∀ t ∈ ts, (splitAt? t.position text.toList).isSome
  front : ∀ t ∈ ts.head?, ∃ cs, slice? text.toList 0 t.position = some cs ∧
    tokenize (String.ofList cs) = .ok [⟨.endOfInput, "", byteSize cs⟩]
  tile : ∀ i t u, ts[i]? = some t → ts[i + 1]? = some u →
    ∃ cs, slice? text.toList t.position u.position = some cs ∧
      tokenize (String.ofList cs) = .ok [⟨t.kind, t.text, 0⟩, ⟨.endOfInput, "", byteSize cs⟩]

section
variable {text : String} {ts before after : List Token} {t u : Token}

theorem exists_cut_of_tokenize (before : List Token)
    (h : tokenize text = .ok (before ++ t :: after)) :
    ∃ pre post, text.toList = pre ++ post ∧ t.position = byteSize pre ∧
      Lexer.run ⟨t.position, post, false⟩ = (t :: after).map .ok ∧
      ∀ us, Scan.Breaks us → (us = [] ∨ t.kind ≠ .endOfInput ∨ ¬endsInComment text) →
        Lexes 0 pre before us := by
  obtain ⟨pre, post, hsource, hpos, hrun, hlex⟩ :=
    Lexer.exists_cut before (eq_map_ok_of_mapM h) (by simp [Lexer.ofString])
  refine ⟨pre, post, hsource, ?_, hrun, hlex⟩
  rw [hpos, Lexer.ofString, Nat.zero_add]

theorem exists_before_of_tokenize {us : List Token} (h : tokenize text = .ok ts)
    (hus : us <:+ ts.dropLast) : ∃ before e, tokenize text = .ok (before ++ (us ++ [e])) := by
  obtain ⟨before, hbefore⟩ := hus
  obtain ⟨-, all, e, rfl, -⟩ := tokenize_eq_ok h
  rw [List.dropLast_concat] at hbefore
  exact ⟨before, e, by rw [h, ← hbefore, List.append_assoc]⟩

theorem exists_scan_of_tokenize (before : List Token)
    (h : tokenize text = .ok (before ++ t :: after)) :
    ∃ pre post s, text.toList = pre ++ post ∧ t.position = byteSize pre ∧
      Scan.token post = .ok s ∧ s.value = (t.kind, t.text) := by
  obtain ⟨pre, post, hsource, hpos, hrun, -⟩ := exists_cut_of_tokenize before h
  obtain ⟨l, hstep, -⟩ := Lexer.exists_of_run_cons (by simp) hrun
  obtain ⟨s, hs, ht, -⟩ := Lexer.exists_of_step hstep
  have hspelling : (Scan.comments post).spelling = [] := by
    by_contra hne
    have hsize := byteSize_pos hne
    have hsame := congrArg Token.position ht
    dsimp only at hsame
    omega
  have hcomments := Scan.spelling_comments post
  rw [hspelling, List.nil_append] at hcomments
  exact ⟨pre, post, s, hsource, hpos, by rwa [hcomments] at hs, by rw [ht]⟩

theorem last_of_tokenize (h : tokenize text = .ok (before ++ [t])) :
    t = ⟨.endOfInput, "", byteSize text.toList⟩ := by
  obtain ⟨pre, post, s, hsource, hpos, hs, hvalue⟩ := exists_scan_of_tokenize before h
  have hk : t.kind = .endOfInput := by
    obtain ⟨-, us, e, hts, he, -⟩ := tokenize_eq_ok h
    rw [(List.append_inj_right' hts rfl |> List.cons.inj).1, he]
  have hpost : post = [] := Scan.eq_nil_of_token hs (by rw [hvalue, hk])
  subst hpost
  cases hs
  obtain ⟨kind, string, position⟩ := t
  cases hvalue
  rw [hsource, List.append_nil]
  exact congrArg (Token.mk .endOfInput "") hpos

theorem front_of_tokenize (h : tokenize text = .ok (t :: after)) :
    ∃ cs, slice? text.toList 0 t.position = some cs ∧
      tokenize (String.ofList cs) = .ok [⟨.endOfInput, "", byteSize cs⟩] := by
  obtain ⟨pre, post, hsource, hpos, -, hlex⟩ := exists_cut_of_tokenize [] h
  have hslice := slice?_append [] pre post
  rw [List.nil_append, byteSize, Nat.zero_add, ← hsource, ← hpos] at hslice
  exact ⟨pre, hslice, (hlex [] Scan.breaks_nil (.inl rfl)).tokenize_ofList⟩

theorem tile_of_tokenize (h : tokenize text = .ok (before ++ t :: u :: after)) :
    ∃ cs, slice? text.toList t.position u.position = some cs ∧
      tokenize (String.ofList cs) = .ok [⟨t.kind, t.text, 0⟩, ⟨.endOfInput, "", byteSize cs⟩] := by
  obtain ⟨pre, post, hsource, hpos, hrun, -⟩ := exists_cut_of_tokenize before h
  obtain ⟨cs, rest, hpost, hpos', -, hlex⟩ :=
    Lexer.exists_cut [t] hrun (by simp)
  dsimp only at hpost hpos' hlex
  have hslice := slice?_append pre cs rest
  rw [List.append_assoc, ← hpost, ← hsource, ← hpos, ← hpos'] at hslice
  have htokens := (hlex [] Scan.breaks_nil (.inl rfl)).tokenize_ofList
  exact ⟨cs, hslice, by simpa [Token.move] using htokens⟩

/-- The tokens of a text tile it. -/
theorem tiles_of_tokenize (h : tokenize text = .ok ts) : Tiles text ts := by
  obtain ⟨-, us, e, rfl, -, hus⟩ := tokenize_eq_ok h
  refine ⟨⟨us, by rw [last_of_tokenize h], hus⟩, tokenize_increasing h, fun t ht => ?_,
    fun t ht => ?_, fun i t u hi hj => ?_⟩
  · obtain ⟨before, after, hts⟩ := List.append_of_mem ht
    obtain ⟨pre, post, hsource, hpos, -⟩ := exists_cut_of_tokenize before (hts ▸ h)
    rw [hpos, hsource, splitAt?_append]
    rfl
  · obtain ⟨after, hts⟩ := List.head?_eq_some_iff.1 ht
    exact front_of_tokenize (hts ▸ h)
  · obtain ⟨hlt, rfl⟩ := List.getElem?_eq_some_iff.1 hi
    obtain ⟨hlt', rfl⟩ := List.getElem?_eq_some_iff.1 hj
    have hsplit : us ++ [e] = (us ++ [e]).take i ++
        (us ++ [e])[i] :: (us ++ [e])[i + 1] :: (us ++ [e]).drop (i + 2) := by
      rw [← List.drop_eq_getElem_cons hlt', ← List.drop_eq_getElem_cons hlt, List.take_append_drop]
    exact tile_of_tokenize (h.trans (congrArg Except.ok hsplit))

/-- Comments belong to the token before them, or to none. -/
theorem tiles_around_comments :
    let ts : List Token := [⟨.hash, "\uFFFD", 5⟩, ⟨.whitespace, " ", 13⟩, ⟨.ident, "b", 14⟩,
      ⟨.endOfInput, "", 15⟩]
    tokenize "/*x*/#\\0 /**/ b" = .ok ts ∧ Tiles "/*x*/#\\0 /**/ b" ts := by
  intro ts
  have h : tokenize "/*x*/#\\0 /**/ b" = .ok ts := by cbv
  exact ⟨h, tiles_of_tokenize h⟩

end
end CssSelector
