import CssSelector.Proofs.Comment
import CssSelector.Proofs.Lexing.Space
import CssSelector.Proofs.Reads.Recast

/-!
White space that says nothing. At the ends of a text, beside commas and combinators, inside of the
parentheses of a known name and between the brackets of an attribute selector there may be more of it,
and the selector stays the same (`Dialect.parse_insert_spaces`).
-/

set_option autoImplicit false

namespace CssSelector

open Text

def Token.stop? (source : List Char) (t : Token) : Option Nat := do
  let (_, cs) ← splitAt? t.position source
  let s ← (Scan.token cs).toOption
  return t.position + byteSize s.spelling

theorem Token.EndsWith.stop?_eq {t : Token} {pre post : List Char} (h : t.EndsWith 0 pre post) :
    t.stop? (pre ++ post) = some (byteSize pre) := by
  obtain ⟨xs, s, hpos, rfl, hs⟩ := h
  rw [Nat.zero_add] at hpos
  rw [Token.stop?, List.append_assoc, hpos, splitAt?_append, byteSize_append]
  dsimp only [Option.bind_eq_bind, Option.bind_some]
  rw [hs]
  rfl

namespace Parse

/-- Between these tokens of a selector white space says nothing. -/
inductive Slack (d : Dialect) : List Token → List Token → Prop
  | start (ys : List Token) : Slack d [] ys
  | stop (xs : List Token) : Slack d xs []
  | before {xs : List Token} {t : Token} (ys : List Token) :
    ((Zone.selector.after d xs).next d t).1.spaceBefore → Slack d xs (t :: ys)
  | behind {xs : List Token} {t : Token} (ys : List Token) :
    ((Zone.selector.after d xs).next d t).1.spaceAfter → Slack d (xs ++ [t]) ys

section
variable {c c' : Context} {f : Nat → Nat} {xs ys s : List Token} {T : Selector} {ms : List Mention}

theorem Slack.keptLoose (h : Slack c.dialect xs ys) (hx : Kept c c' f xs)
    (hy : ∀ o us, o :: us <:+: ys → o.kind = .leftParen → Kept c c' f (o :: us)) :
    KeptLoose c c' f .selector (xs ++ ys) := by
  intro o us hi ho hloose
  rw [Zone.roles_append, List.infix_append_iff_ne_nil] at hi
  obtain hi | hi | ⟨as, bs, has, hbs, hsplit, hxs, hys⟩ := hi
  · refine hx.mono fun t ht => ?_
    obtain ⟨a, ha, rfl⟩ := List.mem_map.1 ht
    exact Zone.fst_mem_of_mem_roles (hi.subset ha)
  · refine hy o.1 (us.map Prod.fst) ?_ ho
    have hmap := hi.map Prod.fst
    rwa [Zone.map_fst_roles] at hmap
  · -- one of the tokens beside the place is not loose
    rw [hsplit, List.forall_mem_append] at hloose
    exfalso
    cases h with
    | start => exact has (List.suffix_nil.1 hxs)
    | stop => exact hbs (List.prefix_nil.1 hys)
    | before ys hρ =>
      obtain ⟨bs, rfl, -⟩ := (List.prefix_cons_iff.1 hys).resolve_left hbs
      have hrole := hloose.2 _ List.mem_cons_self
      dsimp only at hrole
      rw [hrole] at hρ
      contradiction
    | behind ys hρ =>
      rw [Zone.roles_append] at hxs
      obtain ⟨as, rfl, -⟩ := (List.suffix_concat_iff.1 hxs).resolve_left has
      have hrole := hloose.1 _ (List.mem_append_right _ List.mem_cons_self)
      dsimp only at hrole
      rw [hrole] at hρ
      contradiction

theorem Reads.spaces_between (h : Reads c (xs ++ ys) (.selector T) ms) (hs : Spaces s)
    (slack : Slack c.dialect xs ys)
    (hi : (xs ++ ys).Pairwise fun t u => t.position < u.position)
    (hk : KeptLoose c c' f .selector (xs ++ ys))
    (hσ : ∀ category name,
      c'.dialect.signature? category name = c.dialect.signature? category name) :
    Reads c' (xs.map (Token.move f) ++ (s ++ ys.map (Token.move f))) (.selector T)
      (ms.map (Mention.move f)) := by
  have hmove {zs : List Token} :
      zs.flatMap (fun u => [u.move f]) = zs.map (Token.move f) := List.map_eq_flatMap.symm
  cases slack with
  | start =>
    have hread := h.edit hσ (.of_kept hk)
    rw [hmove] at hread
    exact (reads_spaces_append_iff hs).2 hread
  | stop =>
    have hread := h.edit hσ (.of_kept hk)
    rw [hmove, List.append_nil] at hread
    simpa using hread.selector_append_spaces hs
  | @before xs t ys hρ =>
    obtain ⟨e, E, he⟩ := Edits.exists_of_kept hk hi
      (@Edit.mk _ _ _ _ s [] _ hs .nil (fun _ => hρ) (absurd rfl) (Role.keeps_refl id _ t.text))
    have hread := h.edit hσ E
    rw [he] at hread
    simpa [Token.move] using hread
  | @behind xs t ys hρ =>
    rw [List.append_assoc, List.singleton_append] at h hi hk
    obtain ⟨e, E, he⟩ := Edits.exists_of_kept hk hi
      (.mk (s := []) .nil hs (absurd rfl) (fun _ => hρ) (Role.keeps_refl id _ t.text))
    have hread := h.edit hσ E
    rw [he] at hread
    simpa [Token.move] using hread

end

/-! The pieces of a source on both sides of what is put into it. -/

section
variable {d : Dialect} {f : Nat → Nat} {pre post W : List Char} {xs : List Token}

theorem kept_before (hf : ∀ m < byteSize pre, f m = m) (hx : ∀ t ∈ xs, t.position < byteSize pre) :
    Kept ⟨d, pre ++ post⟩ ⟨d, pre ++ (W ++ post)⟩ f xs := by
  intro t ht u hu text h
  dsimp only at h ⊢
  rw [hf _ (hx t ht), hf _ (hx u hu), slice?_append_right_of_le (hx u hu).le]
  rwa [slice?_append_right_of_le (hx u hu).le] at h

theorem kept_behind (hx : ∀ t ∈ xs, ∃ m, t.position = byteSize pre + m ∧
      f t.position = byteSize W + t.position) :
    Kept ⟨d, pre ++ post⟩ ⟨d, pre ++ (W ++ post)⟩ f xs := by
  have hmove (m : Nat) : byteSize W + (byteSize pre + m) = byteSize (pre ++ W) + m := by
    rw [byteSize_append]
    omega
  intro t ht u hu text h
  obtain ⟨m, hm, hfm⟩ := hx t ht
  obtain ⟨n, hn, hfn⟩ := hx u hu
  dsimp only at h ⊢
  rw [hm, hn, slice?_add] at h
  rw [hfm, hfn, hm, hn, hmove, hmove, ← List.append_assoc, slice?_add]
  exact h

end
end Parse

namespace Gap
variable {d : Dialect} {before after : List Token} {pre post W : List Char}

open Parse

theorem position_lt (g : Gap 0 before after pre post) :
    ∀ t ∈ before, t.position < byteSize pre := by
  have hrun : Lexer.run ⟨0, pre ++ [], false⟩ = _ := g.alone
  rw [Lexes.run_nil, ← List.map_singleton, ← List.map_append] at hrun
  intro t ht
  have hlt := (List.pairwise_append.1 (Lexer.run_increasing hrun)).2.2 t ht _ List.mem_cons_self
  simpa using hlt

theorem kept (g : Gap 0 before after pre post) {f : Nat → Nat}
    (hf : ∀ m > byteSize pre, f m = byteSize W + m)
    (hfirst : f (byteSize pre) = byteSize W + byteSize pre ∨
      ∃ w ts, after = w :: ts ∧ w.kind = .whitespace)
    {o : Token} {us : List Token} (hi : o :: us <:+: after) (ho : o.kind = .leftParen) :
    Kept ⟨d, pre ++ post⟩ ⟨d, pre ++ (W ++ post)⟩ f (o :: us) := by
  refine kept_behind fun t ht => ?_
  obtain ⟨xs, -, -, hpos⟩ := Lexer.run_placed g.run t (hi.subset ht)
  dsimp only at hpos
  rw [Nat.zero_add] at hpos
  refine ⟨_, hpos, ?_⟩
  by_cases hlt : byteSize pre < t.position
  · exact hf _ hlt
  · have heq : t.position = byteSize pre := by omega
    rw [heq]
    refine hfirst.resolve_right ?_
    rintro ⟨w, ts, rfl, hw⟩
    -- what is captured starts with a parenthesis, and so behind the white space
    have hbehind : t ∈ ts := by
      rcases List.infix_cons_iff.1 hi with hprefix | hi
      · obtain ⟨rfl, -⟩ := List.cons_prefix_cons.1 hprefix
        rw [ho] at hw
        contradiction
      · exact hi.subset ht
    have hincreasing := (List.pairwise_cons.1 (Lexer.run_increasing g.run)).1 t hbehind
    obtain ⟨ys, -, -, hwpos⟩ := Lexer.run_placed g.run w List.mem_cons_self
    dsimp only at hwpos
    omega

end Gap

namespace Dialect

open Parse

/-- White space may be put into a gap between tokens if it says nothing there. -/
theorem parse_of_gap {d : Dialect} {text w : String} {before as : List Token} {e : Token}
    {pre post : List Char} (h : tokenize text = .ok (before ++ (as ++ [e])))
    (htext : text.toList = pre ++ post) (g : Gap 0 before (as ++ [e]) pre post)
    (slack : Slack d before as) (hW : Blank w.toList) {r : Reading} (hr : d.parse text = .ok r) :
    ∃ text' r', insertAt? text (byteSize pre) w = some text' ∧ d.parse text' = .ok r' ∧
      r'.selector = r.selector ∧
      r'.warnings.map Warning.message = r.warnings.map Warning.message := by
  obtain ⟨ts, ht, ms, hread, hpass⟩ := parse_eq_ok.1 hr
  cases h.symm.trans ht
  obtain ⟨s, f, hs, hrun, hlt, hgt, hfirst⟩ := g.exists_run hW
  rw [Nat.zero_add] at hlt hgt hfirst
  have hbefore : before.map (Token.move f) = before := by
    refine (List.map_congr_left fun t ht => ?_).trans (List.map_id before)
    rw [Token.move, hlt _ (g.position_lt t ht)]
    rfl
  have htokens : tokenize (String.ofList (pre ++ (w.toList ++ post))) =
      .ok (before ++ (s ++ (as ++ [e]).map (Token.move f))) := by
    rw [tokenize, Lexer.ofString, String.toList_ofList, hrun]
    exact mapM_map_ok _
  rw [← List.append_assoc, List.dropLast_concat] at hread
  have hincreasing := tokenize_increasing h
  rw [← List.append_assoc] at hincreasing
  have hkept : KeptLoose ⟨d, text.toList⟩ ⟨d, (String.ofList (pre ++ (w.toList ++ post))).toList⟩ f
      .selector (before ++ as) := by
    rw [htext, String.toList_ofList]
    exact slack.keptLoose (kept_before hlt g.position_lt) fun o us hi ho =>
      g.kept hgt hfirst (hi.trans (List.prefix_append _ _).isInfix) ho
  have hnew := hread.spaces_between hs slack (List.pairwise_append.1 hincreasing).1 hkept
    fun _ _ => rfl
  rw [hbefore] at hnew
  refine ⟨_, ⟨r.selector, r.warnings.map (Warning.move f)⟩, ?_,
    parse_eq_ok.2 ⟨_, htokens, _, ?_, hpass.move f⟩, rfl, by simp [Warning.move]⟩
  · rw [insertAt?, htext, splitAt?_append]
    rfl
  · simpa using hnew

/-- Offsets in a text where white space says nothing. -/
inductive Insignificant (d : Dialect) (text : String) : Nat → Prop
  | start : Insignificant d text 0
  | stop : ¬endsInComment text → Insignificant d text (byteSize text.toList)
  | before {ts : List Token} {a : Token × Role} : tokenize text = .ok ts →
    a ∈ Zone.selector.roles d ts.dropLast → a.2.spaceBefore → Insignificant d text a.1.position
  | behind {ts : List Token} {a : Token × Role} {n : Nat} : tokenize text = .ok ts →
    a ∈ Zone.selector.roles d ts.dropLast → a.2.spaceAfter →
    a.1.stop? text.toList = some n → Insignificant d text n

theorem parse_insert_spaces {d : Dialect} {text w : String} {n : Nat} {r : Reading}
    (hr : d.parse text = .ok r) (hn : d.Insignificant text n) (hw : Blank w.toList) :
    ∃ text' r', insertAt? text n w = some text' ∧ d.parse text' = .ok r' ∧
      r'.selector = r.selector ∧
      r'.warnings.map Warning.message = r.warnings.map Warning.message := by
  cases hn with
  | start =>
    obtain ⟨ts, ht, -⟩ := parse_eq_ok.1 hr
    obtain ⟨-, us, e, rfl, -⟩ := tokenize_eq_ok ht
    have g : Gap 0 [] (us ++ [e]) [] text.toList :=
      ⟨.nil _ _, eq_map_ok_of_mapM ht, fun W _ => ⟨[], W, rfl, .nil _ _⟩⟩
    exact parse_of_gap ht rfl g (.start us) hw hr
  | stop hc =>
    obtain ⟨ts, ht, -⟩ := parse_eq_ok.1 hr
    obtain ⟨-, us, e, rfl, -⟩ := tokenize_eq_ok ht
    obtain ⟨pre, post, htext, hpos, g⟩ :=
      Lexer.exists_gap_before (eq_map_ok_of_mapM ht) (.inr hc)
    rw [last_of_tokenize ht, Nat.zero_add] at hpos
    dsimp only at hpos
    rw [hpos]
    exact parse_of_gap ht htext g (.stop us) hw hr
  | @before _ a ht ha hρ =>
    obtain ⟨-, us, e, rfl, -, hkinds⟩ := tokenize_eq_ok ht
    rw [List.dropLast_concat] at ha
    obtain ⟨xs, ys, rfl, hrole⟩ := Zone.exists_split_of_mem_roles ha
    rw [List.append_assoc, List.cons_append] at ht
    obtain ⟨pre, post, htext, hpos, g⟩ :=
      Lexer.exists_gap_before (eq_map_ok_of_mapM ht) (.inl (hkinds a.1 (by simp)))
    rw [Nat.zero_add] at hpos
    rw [hpos]
    exact parse_of_gap ht htext g (.before ys (hrole ▸ hρ)) hw hr
  | @behind _ a n ht ha hρ hstop =>
    obtain ⟨-, us, e, rfl, -⟩ := tokenize_eq_ok ht
    rw [List.dropLast_concat] at ha
    obtain ⟨xs, ys, rfl, hrole⟩ := Zone.exists_split_of_mem_roles ha
    have hsplit : xs ++ a.1 :: ys ++ [e] = xs ++ [a.1] ++ (ys ++ [e]) := by simp
    rw [hsplit] at ht
    obtain ⟨pre, post, htext, g⟩ :=
      Lexer.exists_gap_behind (eq_map_ok_of_mapM ht) (by simp)
    have hend := (g.last a.1 (by simp)).stop?_eq
    rw [← htext] at hend
    cases hstop.symm.trans hend
    exact parse_of_gap ht htext g.toGap (.behind ys (hrole ▸ hρ)) hw hr

/-- A space in front of the comma ends the escape before it. -/
theorem parse_insert_space_behind_escape :
    let d : Dialect := ⟨.insert .empty "is" (.required .selector), .empty, .reject, .reject, {}, {}⟩
    let S : Selector := ⟨[⟨[.pseudo .pseudoClass "is" (some (.selector
      ⟨[⟨[.tagName "A"]⟩, ⟨[.tagName "b"]⟩]⟩))]⟩]⟩
    d.parse ":is(\\41,b)" = .ok ⟨S, []⟩ ∧ d.Insignificant ":is(\\41,b)" 7 ∧ Blank " ".toList ∧
      ∃ r', d.parse ":is(\\41 ,b)" = .ok r' ∧ r'.selector = S := by
  intro d S
  have hparse : d.parse ":is(\\41,b)" = .ok ⟨S, []⟩ := by cbv
  have htokens : tokenize ":is(\\41,b)" = .ok [⟨.colon, ":", 0⟩, ⟨.ident, "is", 1⟩,
      ⟨.leftParen, "(", 3⟩, ⟨.ident, "A", 4⟩, ⟨.comma, ",", 7⟩, ⟨.ident, "b", 8⟩,
      ⟨.rightParen, ")", 9⟩, ⟨.endOfInput, "", 10⟩] := by cbv
  have hn : d.Insignificant ":is(\\41,b)" 7 :=
    .before (a := (⟨.comma, ",", 7⟩, .separator)) htokens (by decide +kernel) rfl
  have hw : Blank " ".toList := ⟨by simp, by simp [Scan.isSpace]⟩
  obtain ⟨text', r', hinsert, hparse', hselector, -⟩ := parse_insert_spaces hparse hn hw
  have htext : insertAt? ":is(\\41,b)" 7 " " = some ":is(\\41 ,b)" := by cbv
  obtain rfl := Option.some.inj (htext.symm.trans hinsert)
  exact ⟨hparse, hn, hw, r', hparse', hselector⟩

end Dialect
end CssSelector
