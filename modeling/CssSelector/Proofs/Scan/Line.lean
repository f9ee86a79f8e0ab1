import CssSelector.Proofs.Lexing.Cut
import CssSelector.Proofs.Scan.Space

set_option autoImplicit false

namespace CssSelector

namespace Text

/-- A text, and the same text with carriage returns in front of some of its line feeds. -/
inductive Returned : List Char → List Char → Prop
  | nil : Returned [] []
  | keep (c : Char) {cs ds : List Char} : Returned cs ds → Returned (c :: cs) (c :: ds)
  | widen {cs ds : List Char} : Returned cs ds → Returned ('\n' :: cs) ('\r' :: '\n' :: ds)

namespace Returned
variable {c : Char} {cs ds : List Char}

theorem exists_of_append (xs : List Char) (h : Returned (xs ++ cs) ds) (hx : '\n' ∉ xs) :
    ∃ ds', ds = xs ++ ds' ∧ Returned cs ds' := by
  induction xs generalizing ds with
  | nil => exact ⟨ds, rfl, h⟩
  | cons x xs ih =>
    obtain ⟨hne, hxs⟩ := List.ne_and_not_mem_of_not_mem_cons hx
    cases h with
    | keep _ h =>
      obtain ⟨ds', rfl, h'⟩ := ih h hxs
      exact ⟨ds', rfl, h'⟩
    | widen h => exact absurd rfl hne

theorem exists_of_cons (h : Returned (c :: cs) ds) (hc : c ≠ '\n') :
    ∃ ds', ds = c :: ds' ∧ Returned cs ds' :=
  exists_of_append [c] h (by simpa using hc.symm)

theorem eq_or_exists (h : Returned cs ds) :
    ds = cs ∨ ∃ pre us vs, cs = pre ++ '\n' :: us ∧ ds = pre ++ '\r' :: '\n' :: vs := by
  induction h with
  | nil => exact .inl rfl
  | keep c _ ih =>
    obtain rfl | ⟨pre, us, vs, rfl, rfl⟩ := ih
    · exact .inl rfl
    · exact .inr ⟨c :: pre, us, vs, rfl, rfl⟩
  | widen => exact .inr ⟨[], _, _, rfl, rfl⟩

theorem dropWhile_isSpace (h : Returned cs ds) :
    Returned (cs.dropWhile Scan.isSpace) (ds.dropWhile Scan.isSpace) := by
  induction h with
  | nil => exact .nil
  | keep c h ih =>
    rw [List.dropWhile_cons, List.dropWhile_cons]
    split
    · exact ih
    · exact .keep c h
  | widen _ ih => exact ih

end Returned
end Text

namespace Scan

open Text

variable {c quote : Char} {cs ds pre us vs : List Char}

/-! A carriage return and a line feed are never inside of a string. -/

theorem quoted_newline (hq : quote ≠ '\n') : quoted quote ('\n' :: us) = none := by
  simp [quoted.eq_def, hq.symm]

theorem quoted_stops (hr : quote ≠ '\r') (hq : quote ≠ '\n') {s : Scan (List Char)}
    (h : quoted quote (pre ++ '\r' :: '\n' :: us) = some s) : s.spelling <+: pre := by
  generalize hcs : pre ++ '\r' :: '\n' :: us = cs at h
  fun_induction quoted quote cs generalizing pre s with
  | case1 | case3 | case4 => contradiction
  | case2 cs =>
    cases h
    rcases pre with _ | ⟨p, pre⟩
    · exact absurd (List.cons.inj hcs).1.symm hr
    · obtain ⟨rfl, -⟩ := List.cons.inj hcs
      exact List.cons_prefix_cons.2 ⟨rfl, List.nil_prefix⟩
  | case5 cs hne hn ih =>
    obtain ⟨t, ht, rfl⟩ := Option.map_eq_some_iff.1 h
    rcases pre with _ | ⟨p, _ | ⟨p', pre⟩⟩
    · cases hcs
    · cases hcs
    · cases hcs
      exact List.cons_prefix_cons.2 ⟨rfl, List.cons_prefix_cons.2 ⟨rfl, ih rfl ht⟩⟩
  | case6 d cs hd e hne hn =>
    rename_i ih
    obtain ⟨t, ht, rfl⟩ := Option.map_eq_some_iff.1 h
    rcases pre with _ | ⟨p, _ | ⟨p', pre⟩⟩
    · cases hcs
    · cases hcs
      have hrest : e.rest = '\n' :: us := rfl
      rw [hrest, quoted_newline hq] at ht
      contradiction
    · obtain ⟨rfl, htail⟩ := List.cons.inj hcs
      obtain ⟨rfl, rfl⟩ := List.cons.inj htail
      obtain he | ⟨-, he⟩ := escape_append_space p' pre
      · have hesc : e = (escape p' pre).before ('\r' :: '\n' :: us) := he '\r' _ rfl
        rw [hesc] at ht ih ⊢
        change '\\' :: (escape p' pre).spelling ++ t.spelling <+: '\\' :: p' :: pre
        rw [← spelling_escape p' pre]
        exact List.cons_prefix_cons.2 ⟨rfl, (List.prefix_append_right_inj _).2 (ih rfl ht)⟩
      · have hrest : e.rest = '\n' :: us := congrArg Scan.rest (he '\r' _ rfl)
        rw [hrest, quoted_newline hq] at ht
        contradiction
  | case7 c cs hne hn hback ih =>
    obtain ⟨t, ht, rfl⟩ := Option.map_eq_some_iff.1 h
    rcases pre with _ | ⟨p, pre⟩
    · cases hcs
      rw [quoted_newline hq] at ht
      contradiction
    · cases hcs
      exact List.cons_prefix_cons.2 ⟨rfl, ih rfl ht⟩

theorem quoted_eq_none_of_returned (hr : quote ≠ '\r') (hq : quote ≠ '\n') (h : Returned cs ds)
    (hs : quoted quote cs = none) : quoted quote ds = none := by
  obtain rfl | ⟨pre, us, vs, rfl, rfl⟩ := h.eq_or_exists
  · exact hs
  · refine Option.eq_none_iff_forall_ne_some.2 fun s hsome => ?_
    obtain ⟨post, rfl⟩ := quoted_stops hr hq hsome
    have hpost : post <+: s.rest := by
      have hrest := spelling_quoted hsome
      rw [List.append_assoc, List.append_cancel_left_eq] at hrest
      exact hrest ▸ List.prefix_append _ _
    have hhex : ∀ c ∈ ('\n' :: us).head?, ¬isHexDigit c := by
      rintro c ⟨⟩
      decide
    rw [quoted_append hhex (quoted_cut hsome hpost)] at hs
    contradiction

inductive IsFault : List Char → LexError.Fault → Prop
  | string {c : Char} {cs : List Char} : c = '"' ∨ c = '\'' → quoted c cs = none →
      IsFault (c :: cs) .unterminatedString
  | character {c : Char} {cs : List Char} : ¬isSpace c → c ≠ '"' → c ≠ '\'' →
      ¬(c = '#' ∧ (cs.head?.any isNameChar || startsEscape cs)) → ¬startsNumber (c :: cs) →
      ¬startsName (c :: cs) → (marks.find? fun m => m.1.isPrefixOf (c :: cs)) = none →
      IsFault (c :: cs) (.invalidCharacter c)

theorem token_eq_error {f : LexError.Fault} : token cs = .error f ↔ IsFault cs f := by
  constructor
  · intro h
    unfold token at h
    split at h
    · cases h
    next c cs =>
    repeat' split at h
    all_goals cases h
    · next hquote _ hs => exact .string (by simpa using hquote) hs
    · next hspace hquote hhash hnum hname _ hm =>
      obtain ⟨hdouble, hsingle⟩ : c ≠ '"' ∧ c ≠ '\'' := by simpa using hquote
      exact .character hspace hdouble hsingle (by simpa using hhash) hnum hname hm
  · rintro (⟨hc, hs⟩ | @⟨c, cs, hspace, hdouble, hsingle, hhash, hnum, hname, hm⟩)
    · rcases hc with rfl | rfl <;> simp [token, isSpace, hs]
    · have hhash' : ¬(c = '#' ∧ (cs.head?.any isNameChar = true ∨ startsEscape cs)) := by
        simpa using hhash
      simp [token, hspace, hdouble, hsingle, hhash', hnum, hname, hm]

/-- Whether an escape meets a line feed in front of a text. Either the line feed keeps a backslash from
being an escape, or a token that is no white space takes it, in an escape or to join the lines of a string. -/
def escapesLine (cs : List Char) : Bool :=
  ['\\', '\n'].isPrefixOf cs || ['#', '\\', '\n'].isPrefixOf cs ||
    match token cs with
    | .ok s => s.value.1 ≠ .whitespace && s.spelling.contains '\n'
    | .error _ => false

example : escapesLine "\\41\nb".toList = true := by cbv

theorem not_prefix_of_not_escapesLine (h : ¬escapesLine cs) :
    ¬['\\', '\n'] <+: cs ∧ ¬['#', '\\', '\n'] <+: cs := by
  simp only [escapesLine, Bool.or_eq_true, not_or, List.isPrefixOf_iff_prefix] at h
  exact h.1

theorem not_mem_spelling_of_not_escapesLine (h : ¬escapesLine cs) {s : Scan (Token.Kind × String)}
    (hs : token cs = .ok s) (hk : s.value.1 ≠ .whitespace) : '\n' ∉ s.spelling := by
  simp only [escapesLine, hs, Bool.or_eq_true, not_or] at h
  simpa [hk] using h.2

/-! Without backslashes no token but white space takes a line feed. -/

theorem isNameChar_of_mem_name (hback : '\\' ∉ cs) : ∀ c ∈ (name cs).spelling, isNameChar c := by
  fun_induction name cs with
  | case1 | case4 | case5 => simp
  | case2 => exact absurd List.mem_cons_self hback
  | case3 c cs hno hc ih =>
    exact List.forall_mem_cons.2 ⟨hc, ih fun hm => hback (List.mem_cons_of_mem c hm)⟩

theorem not_mem_spelling_quoted (hq : quote ≠ '\n') (hback : '\\' ∉ cs) {s : Scan (List Char)}
    (hs : quoted quote cs = some s) : '\n' ∉ s.spelling := by
  fun_induction quoted quote cs generalizing s with
  | case1 | case3 | case4 => contradiction
  | case2 =>
    cases hs
    simpa using hq.symm
  | case5 | case6 => exact absurd List.mem_cons_self hback
  | case7 c cs hne hn hb ih =>
    obtain ⟨t, ht, rfl⟩ := Option.map_eq_some_iff.1 hs
    refine List.not_mem_cons_of_ne_of_not_mem (Ne.symm hn) ?_
    exact ih (fun hm => hback (List.mem_cons_of_mem c hm)) ht

theorem not_escapesLine_of_not_mem (hback : '\\' ∉ cs) : ¬escapesLine cs := by
  have hfront {xs : List Char} (hx : '\\' ∈ xs) : ¬xs <+: cs := fun h => hback (h.subset hx)
  have hname {xs : List Char} (hx : '\\' ∉ xs) : '\n' ∉ (name xs).spelling :=
    fun hm => absurd (isNameChar_of_mem_name hx _ hm) (by decide)
  have htoken {s : Scan (Token.Kind × String)} (hs : token cs = .ok s)
      (hk : s.value.1 ≠ .whitespace) : '\n' ∉ s.spelling := by
    cases token_eq_ok.1 hs with
    | endOfInput => simp
    | space => exact absurd rfl hk
    | @string c cs t hc ht =>
      have hq : c ≠ '\n' := by rcases hc with rfl | rfl <;> decide
      refine List.not_mem_cons_of_ne_of_not_mem hq.symm ?_
      exact not_mem_spelling_quoted hq (fun hm => hback (List.mem_cons_of_mem c hm)) ht
    | hash =>
      refine List.not_mem_cons_of_ne_of_not_mem (by decide) ?_
      exact hname fun hm => hback (List.mem_cons_of_mem _ hm)
    | number => exact fun hm => absurd (mem_numeral hm) (by decide)
    | name => exact hname hback
    | mark _ _ _ hm =>
      have hall : ∀ m ∈ marks, '\n' ∉ m.1 := by simp [marks]
      exact hall _ (List.mem_of_find?_eq_some hm)
  simp only [escapesLine, Bool.or_eq_true, not_or, List.isPrefixOf_iff_prefix]
  refine ⟨⟨hfront (by simp), hfront (by simp)⟩, ?_⟩
  cases hs : token cs with
  | error => simp
  | ok s => simpa using htoken hs

/-- What is no token is told by its first characters, and a backslash among them by what it escapes. -/
theorem isFault_append (hu : Stops us) (hcs : c :: pre ∉ [['\\'], ['-', '\\'], ['#', '\\']]) :
    IsFault (c :: pre ++ us) (.invalidCharacter c) ↔ IsFault (c :: pre) (.invalidCharacter c) := by
  simp only [List.mem_cons, List.not_mem_nil, or_false, not_or] at hcs
  obtain ⟨hescape, hdash, hhash⟩ := hcs
  have hnumber := startsNumber_append hu.digit hu.point (List.cons_ne_nil c pre)
  have hname := startsName_append hu.name hu.backslash (List.cons_ne_nil c pre) hescape hdash
  have hmarks := find?_marks_append hu.second (List.cons_ne_nil c pre)
  have hopen : c = '#' → ((pre ++ us).head?.any isNameChar || startsEscape (pre ++ us)) =
      (pre.head?.any isNameChar || startsEscape pre) := by
    rintro rfl
    rcases pre with _ | ⟨d, pre⟩
    · cases us with
      | nil => rfl
      | cons u us =>
        have hu' : u ≠ '\\' := fun h => hu.backslash (by simp [h])
        simpa [startsEscape, hu'] using hu.name u rfl
    · rw [startsEscape_append (List.cons_ne_nil d pre) (by simpa using hhash)]
      rfl
  rw [List.cons_append] at hnumber hname hmarks ⊢
  constructor
  · intro h
    cases h with
    | character hspace hdouble hsingle ho hn hs hm =>
      exact .character hspace hdouble hsingle (fun h => ho ⟨h.1, (hopen h.1).trans h.2⟩) (hnumber ▸ hn)
        (hname ▸ hs) (hmarks ▸ hm)
  · intro h
    cases h with
    | character hspace hdouble hsingle ho hn hs hm =>
      exact .character hspace hdouble hsingle (fun h => ho ⟨h.1, (hopen h.1).symm.trans h.2⟩)
        (hnumber ▸ hn) (hname ▸ hs) (hmarks ▸ hm)

theorem exists_token_of_returned_space (h : Returned cs ds) {s : Scan (Token.Kind × String)}
    (hs : token cs = .ok s) (hk : s.value.1 = .whitespace) :
    ∃ t, token ds = .ok t ∧ t.value = s.value ∧ Returned s.rest t.rest := by
  cases token_eq_ok.1 hs with
  | @space c cs hc =>
    have hdrop := h.dropWhile_isSpace
    obtain ⟨d, ds', rfl, hd⟩ : ∃ d ds', ds = d :: ds' ∧ isSpace d := by
      cases h with
      | keep => exact ⟨c, _, rfl, hc⟩
      | widen => exact ⟨'\r', _, rfl, rfl⟩
    rw [List.dropWhile_cons_of_pos hc, List.dropWhile_cons_of_pos hd] at hdrop
    exact ⟨_, token_space hd, rfl, hdrop⟩
  | mark _ _ _ hm =>
    have hall : ∀ m ∈ marks, m.2 ≠ .whitespace := by decide
    exact absurd hk (hall _ (List.mem_of_find?_eq_some hm))
  | _ => simp at hk

/-- A token that ends in front of a line feed or earlier also ends there in front of a carriage return. -/
theorem token_return {s : Scan (Token.Kind × String)} (hs : token cs = .ok s)
    (hk : s.value.1 ≠ .whitespace) (hrest : s.rest = pre ++ '\n' :: us) (hback : pre ≠ ['\\']) :
    token (s.spelling ++ (pre ++ '\r' :: vs)) = .ok ⟨s.value, s.spelling, pre ++ '\r' :: vs⟩ := by
  have hend : s.value.1 ≠ .endOfInput := by
    intro hend
    obtain rfl := eq_nil_of_token hs hend
    cases hs
    simp at hrest
  by_cases hnil : pre = []
  · subst hnil
    have hself := token_cut hs (List.nil_prefix (l := s.rest)) (by simp)
    rw [List.append_nil] at hself
    obtain hspace | ⟨-, hspace | ⟨-, hspace⟩⟩ :=
      token_append_space (spelling_token_ne_nil hs hend) hself (by simp [cut])
    · exact hspace '\r' _ rfl
    · exact absurd hspace hk
    · -- The token would have taken the line feed.
      have hcut := @token_cut cs ['\n'] s hs ⟨us, by rw [hrest]; rfl⟩ (by simp)
      rw [hspace '\n' [] rfl (by simp [name])] at hcut
      exact absurd (congrArg Scan.rest (Except.ok.inj hcut)) (by simp [cut])
  · exact token_swap hs hend (hrest ▸ List.prefix_append _ _) hback (stops_of_isSpace rfl _)
      fun h => absurd h hnil

theorem exists_token_of_returned (h : Returned cs ds) {s : Scan (Token.Kind × String)}
    (hs : token cs = .ok s) (hesc : ¬escapesLine cs) (hrest : ¬['\\', '\n'] <+: s.rest) :
    ∃ t, token ds = .ok t ∧ t.value = s.value ∧ Returned s.rest t.rest := by
  by_cases hk : s.value.1 = .whitespace
  · exact exists_token_of_returned_space h hs hk
  · rw [← spelling_token hs] at h
    obtain ⟨rest, rfl, h'⟩ := h.exists_of_append _ (not_mem_spelling_of_not_escapesLine hesc hs hk)
    refine ⟨⟨s.value, s.spelling, rest⟩, ?_, rfl, h'⟩
    obtain rfl | ⟨pre, us, vs, hus, rfl⟩ := h'.eq_or_exists
    · rwa [← spelling_token hs] at hs
    · refine token_return hs hk hus ?_
      rintro rfl
      exact hrest ⟨us, hus.symm⟩

theorem token_error_of_returned (h : Returned cs ds) {f : LexError.Fault} (hf : token cs = .error f)
    (hesc : ¬escapesLine cs) : token ds = .error f := by
  obtain ⟨hback, hhash⟩ := not_prefix_of_not_escapesLine hesc
  rw [token_eq_error] at hf ⊢
  cases hf with
  | @string c cs hc hs =>
    have hne : c ≠ '\n' ∧ c ≠ '\r' := by rcases hc with rfl | rfl <;> decide
    obtain ⟨ds, rfl, h'⟩ := h.exists_of_cons hne.1
    exact .string hc (quoted_eq_none_of_returned hne.2 hne.1 h' hs)
  | @character c cs hspace hdouble hsingle hopen hnum hname hm =>
    have hfault : IsFault (c :: cs) (.invalidCharacter c) :=
      .character hspace hdouble hsingle hopen hnum hname hm
    obtain rfl | ⟨pre, us, vs, hcs, rfl⟩ := h.eq_or_exists
    · exact hfault
    rcases pre with _ | ⟨p, pre⟩
    · obtain ⟨rfl, -⟩ := List.cons.inj hcs
      exact absurd rfl hspace
    obtain ⟨rfl, rfl⟩ := List.cons.inj hcs
    have hpre : c :: pre ∉ [['\\'], ['-', '\\'], ['#', '\\']] := by
      simp only [List.mem_cons, List.not_mem_nil, or_false, not_or]
      refine ⟨?_, ?_, ?_⟩ <;> rintro ⟨⟩
      · exact hback ⟨us, rfl⟩
      · -- A hyphen that starts no name is a token.
        have hdelim : (marks.find? fun m => m.1.isPrefixOf ('-' :: '\\' :: '\n' :: us)) =
          some (['-'], .delim) := rfl
        exact absurd (hm.symm.trans hdelim) nofun
      · exact hhash ⟨us, rfl⟩
    have hself : IsFault (c :: pre) (.invalidCharacter c) :=
      (isFault_append (stops_of_isSpace rfl _) hpre).1 hfault
    exact (isFault_append (stops_of_isSpace rfl _) hpre).2 hself

end Scan
end CssSelector
