import CssSelector.Proofs.Lexing.Trim
import CssSelector.Proofs.Reads.Loose
import CssSelector.Proofs.Tiling

/-!
What the argument of a name that is not known says. The text between its parentheses comes to the
tokens between them by itself, and so does that text without the blanks around it, up to white space
at both ends, where the lexer takes those blanks for white space and no backslash loses the blank
that it escapes (`Parse.tokenize_captured`).
-/

set_option autoImplicit false

namespace CssSelector

open Text

/-- What tokens say, without the white space at both ends. -/
def stripped (ts : List Token) : List (Token.Kind × String) :=
  ((ts.map fun t => (t.kind, t.text)).dropWhile (·.1 = .whitespace)).rdropWhile (·.1 = .whitespace)

section
variable {ws xs : List Token}

theorem stripped_spaces_append (hw : Parse.Spaces ws) (xs : List Token) :
    stripped (ws ++ xs) = stripped xs := by
  unfold stripped
  rw [List.map_append, List.dropWhile_append_of_pos]
  exact List.forall_mem_map.2 fun w h => decide_eq_true (hw w h)

theorem stripped_append_spaces (hw : Parse.Spaces ws) (xs : List Token) :
    stripped (xs ++ ws) = stripped xs := by
  have hone {ys : List Token} {w : Token} (h : w.kind = .whitespace) :
      stripped (ys ++ [w]) = stripped ys := by
    unfold stripped
    rw [List.map_append, List.dropWhile_append]
    split
    next hnil => simp [List.isEmpty_iff.1 hnil, h]
    next => exact List.rdropWhile_concat_pos _ _ _ (decide_eq_true h)
  induction ws using List.reverseRecOn with
  | nil => rw [List.append_nil]
  | append_singleton ws w ih =>
    rw [← List.append_assoc, hone (hw w (by simp)), ih fun u hu => hw u (by simp [hu])]

@[simp] theorem stripped_move (f : Nat → Nat) (xs : List Token) :
    stripped (xs.map (Token.move f)) = stripped xs := by
  simp [stripped, Token.move, Function.comp_def]

end

theorem exists_between_of_tokenize {text : String} {before xs after : List Token} {c : Token}
    (h : tokenize text = .ok (before ++ (xs ++ c :: after))) :
    ∃ cs rest, slice? text.toList (xs.headD c).position c.position = some cs ∧
      c.position = (xs.headD c).position + byteSize cs ∧
      Lexer.run ⟨(xs.headD c).position, cs ++ rest, false⟩ = (xs ++ c :: after).map .ok ∧
      Lexes (xs.headD c).position cs xs [] := by
  obtain ⟨us, hus⟩ : ∃ us, xs ++ c :: after = xs.headD c :: us := by
    cases xs with
    | nil => exact ⟨after, rfl⟩
    | cons x xs => exact ⟨xs ++ c :: after, rfl⟩
  rw [hus] at h
  obtain ⟨pre, post, htext, hpos, hrun, -⟩ := exists_cut_of_tokenize before h
  rw [← hus] at hrun
  obtain ⟨cs, rest, rfl, hc, -, hlex⟩ := Lexer.exists_cut xs hrun (by simp)
  have hslice := slice?_append pre cs rest
  rw [List.append_assoc, ← htext, ← hpos, ← hc] at hslice
  exact ⟨cs, rest, hslice, hc, hrun, hlex [] Scan.breaks_nil (.inl rfl)⟩

namespace Parse

open CssSelector.Parse.Parser

/-- An accepted argument of a name that is not known says what stands between its parentheses. -/
theorem tokenize_captured {d : Dialect} {nested : Parser Selector} {category : Category}
    {text v : String} {t : Token} {ts us vs : List Token} {ws : List Warning}
    (ht : tokenize text = .ok ts) (hus : us <:+ ts.dropLast)
    (hσ : d.signature? category t.text = none)
    (h : (pseudoArgument nested category t).run ⟨d, text.toList⟩ us =
      ⟨.ok (some (.string v)), ws, vs⟩) :
    ∃ o xs c cs, us = o :: (xs ++ c :: vs) ∧ o.kind = .leftParen ∧ Balanced xs ∧
      c.kind = .rightParen ∧ slice? text.toList (xs.headD c).position c.position = some cs ∧
      v = String.ofList (trim cs) ∧
      (∃ zs, tokenize (String.ofList cs) = .ok zs ∧
        zs.dropLast = xs.map (Token.move (· - (xs.headD c).position))) ∧
      ∀ pre post, cs = pre ++ (v.toList ++ post) → (∀ x ∈ pre ++ post, Scan.isSpace x) →
        ¬Scan.opensEscape v.toList →
        ∃ zs, tokenize v = .ok zs ∧ stripped zs.dropLast = stripped xs := by
  rw [pseudoArgument, run_bind_context] at h
  simp only [hσ] at h
  obtain ⟨ws₁, ws₂, rfl, -, h⟩ := exists_of_run_bind_judge h
  obtain ⟨us, rfl, hread, -⟩ := looseArgument_sound hσ h
  generalize ha : some (Argument.string v) = a at hread
  cases hread with
  | bare | bareUnknown => contradiction
  | argument hσ' => simp [hσ] at hσ'
  | @loose _ _ o c xs cs _ ho hb hc hslice =>
    obtain rfl : v = String.ofList (trim cs) := by simpa using ha
    obtain ⟨before, e, htokens⟩ := exists_before_of_tokenize ht hus
    have hsplit : before ++ (o :: (xs ++ [c]) ++ vs ++ [e]) =
        before ++ [o] ++ (xs ++ c :: (vs ++ [e])) := by simp
    rw [hsplit] at htokens
    obtain ⟨cs', rest, hslice', hpos, hrun, hlex⟩ := exists_between_of_tokenize htokens
    rw [show Context.front _ (xs ++ [c]) = xs.headD c by cases xs <;> rfl, hslice'] at hslice
    obtain rfl := Option.some.inj hslice
    refine ⟨o, xs, c, cs', by simp, ho, hb, hc, hslice', rfl, ?_, ?_⟩
    · exact ⟨_, hlex.tokenize_ofList, List.dropLast_concat⟩
    · intro pre post hcs hspaces hopen
      rw [String.toList_ofList] at hcs hopen
      rw [List.forall_mem_append] at hspaces
      rw [hcs, List.append_assoc, List.append_assoc] at hrun
      rw [hcs] at hpos
      have hhead (x : Char) (hx : x ∈ (trim cs').head?) : ¬Scan.isSpace x :=
        fun hs => head?_trim cs' x hx (Scan.isBlank_of_isSpace hs)
      have hlast (x : Char) (hx : x ∈ (trim cs').getLast?) : ¬Scan.isSpace x :=
        fun hs => getLast?_trim cs' x hx (Scan.isBlank_of_isSpace hs)
      obtain ⟨ws, ys, vs', rfl, hws, hvs, hys⟩ := Lexer.exists_trim hrun hpos (by simp [hc])
        (by simp [hc]) hspaces.1 hspaces.2 hhead hlast hopen
      refine ⟨_, hys.tokenize_ofList, ?_⟩
      rw [List.dropLast_concat, stripped_move, stripped_spaces_append hws,
        stripped_append_spaces hvs]

theorem tokenize_captured_escape :
    let d : Dialect := ⟨.empty, .empty, .accept, .accept, {}, {}⟩
    let text := ":x( (b)\\41  )"
    let v := "(b)\\41"
    let t : Token := ⟨.ident, "x", 1⟩
    let xs : List Token := [⟨.whitespace, " ", 3⟩, ⟨.leftParen, "(", 4⟩, ⟨.ident, "b", 5⟩,
      ⟨.rightParen, ")", 6⟩, ⟨.ident, "A", 7⟩, ⟨.whitespace, " ", 11⟩]
    let us : List Token := ⟨.leftParen, "(", 2⟩ :: (xs ++ [⟨.rightParen, ")", 12⟩])
    tokenize text = .ok (⟨.colon, ":", 0⟩ :: t :: us ++ [⟨.endOfInput, "", 13⟩]) ∧
      us <:+ ⟨.colon, ":", 0⟩ :: t :: us ∧ d.signature? .pseudoClass t.text = none ∧
      (pseudoArgument wholeSelector .pseudoClass t).run ⟨d, text.toList⟩ us =
        ⟨.ok (some (.string v)), [], []⟩ ∧
      ∃ zs, tokenize v = .ok zs ∧ stripped zs.dropLast =
        [(.leftParen, "("), (.ident, "b"), (.rightParen, ")"), (.ident, "A")] := by
  intro d text v t xs us
  have ht : tokenize text = .ok (⟨.colon, ":", 0⟩ :: t :: us ++ [⟨.endOfInput, "", 13⟩]) := by cbv
  have hus : us <:+ ⟨.colon, ":", 0⟩ :: t :: us := ⟨[⟨.colon, ":", 0⟩, t], rfl⟩
  have hσ : d.signature? .pseudoClass t.text = none := by rfl
  have hrun : (pseudoArgument wholeSelector .pseudoClass t).run ⟨d, text.toList⟩ us =
      ⟨.ok (some (.string v)), [], []⟩ := by cbv
  obtain ⟨o, ys, c, cs, hys, -, -, -, hslice, -, -, hall⟩ :=
    tokenize_captured ht (by rwa [List.dropLast_concat]) hσ hrun
  obtain ⟨rfl, hc⟩ := List.append_inj' (List.cons.inj hys).2 rfl
  obtain rfl := List.singleton_inj.1 hc
  have hcs : slice? text.toList 3 12 = some ([' '] ++ (v.toList ++ [' ', ' '])) := by decide
  obtain ⟨zs, hzs, hsame⟩ := hall [' '] [' ', ' '] (Option.some.inj (hslice.symm.trans hcs))
    (List.all_iff_forall_prop.1 (by decide)) (by decide)
  exact ⟨ht, hus, hσ, hrun, zs, hzs, hsame.trans (by decide)⟩

/-- The space that a backslash escapes is cut off, so the text that is left ends in a backslash alone
and has no tokens. A space that the lexer takes for a part of a name is cut off too. -/
theorem tokenize_captured_backslash :
    let d : Dialect := ⟨.empty, .empty, .accept, .accept, {}, {}⟩
    let item (v : String) : Selector := ⟨[⟨[.pseudo .pseudoClass "x" (some (.string v))]⟩]⟩
    d.parse ":x(a\\ )" = .ok ⟨item "a\\", []⟩ ∧
      tokenize "a\\" = .error ⟨.invalidCharacter '\\', 1⟩ ∧
      d.parse ":x(a\u00A0)" = .ok ⟨item "a", []⟩ ∧
      tokenize "a\u00A0" = .ok [⟨.ident, "a\u00A0", 0⟩, ⟨.endOfInput, "", 3⟩] ∧
      ¬ ∀ (d : Dialect) (nested : Parser Selector) (category : Category) (text v : String) (t : Token)
          (ts us vs : List Token) (ws : List Warning), tokenize text = .ok ts →
        us <:+ ts.dropLast → d.signature? category t.text = none →
        (pseudoArgument nested category t).run ⟨d, text.toList⟩ us =
          ⟨.ok (some (.string v)), ws, vs⟩ →
        ∀ o xs c, us = o :: (xs ++ c :: vs) →
          ∃ zs, tokenize v = .ok zs ∧ stripped zs.dropLast = stripped xs := by
  intro d item
  have hescaped : d.parse ":x(a\\ )" = .ok ⟨item "a\\", []⟩ := by cbv
  have herror : tokenize "a\\" = .error ⟨.invalidCharacter '\\', 1⟩ := by cbv
  have hname : d.parse ":x(a\u00A0)" = .ok ⟨item "a", []⟩ := by cbv
  have hwhole : tokenize "a\u00A0" = .ok [⟨.ident, "a\u00A0", 0⟩, ⟨.endOfInput, "", 3⟩] := by cbv
  refine ⟨hescaped, herror, hname, hwhole, fun hall => ?_⟩
  let us : List Token := [⟨.leftParen, "(", 2⟩, ⟨.ident, "a ", 3⟩, ⟨.rightParen, ")", 6⟩]
  have ht : tokenize ":x(a\\ )" =
      .ok (⟨.colon, ":", 0⟩ :: ⟨.ident, "x", 1⟩ :: us ++ [⟨.endOfInput, "", 7⟩]) := by cbv
  have hrun : (pseudoArgument wholeSelector .pseudoClass ⟨.ident, "x", 1⟩).run
      ⟨d, ":x(a\\ )".toList⟩ us = ⟨.ok (some (.string "a\\")), [], []⟩ := by cbv
  have hus : us <:+ ⟨.colon, ":", 0⟩ :: ⟨.ident, "x", 1⟩ :: us :=
    ⟨[⟨.colon, ":", 0⟩, ⟨.ident, "x", 1⟩], rfl⟩
  obtain ⟨zs, hzs, -⟩ := hall d wholeSelector .pseudoClass _ _ _ _ us [] [] ht
    (by rwa [List.dropLast_concat]) (by rfl) hrun _ [⟨.ident, "a ", 3⟩] _ rfl
  rw [herror] at hzs
  contradiction

end Parse
end CssSelector
