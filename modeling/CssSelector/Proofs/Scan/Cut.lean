import CssSelector.Proofs.Scan

set_option autoImplicit false

namespace CssSelector

section
variable {α : Type} {p : α → Bool} {xs ys pre : List α}

theorem mem_head?_of_le (h : pre <+: xs) {x : α} (hx : x ∈ pre.head?) : x ∈ xs.head? := by
  obtain ⟨us, rfl⟩ := h
  cases pre with
  | nil => contradiction
  | cons y pre => exact hx

theorem head?_of_prefix_dropWhile (h : pre <+: xs.dropWhile p) : ∀ x ∈ pre.head?, ¬p x := by
  intro x hx
  have hno := List.head?_dropWhile_not p xs
  rw [Option.mem_def.1 (mem_head?_of_le h hx)] at hno
  simpa using hno

theorem takeWhile_cut (h : pre <+: xs.dropWhile p) :
    (xs.takeWhile p ++ pre).takeWhile p = xs.takeWhile p := by
  rw [takeWhile_append_of_head (head?_of_prefix_dropWhile h), List.takeWhile_idem]

theorem dropWhile_cut (h : pre <+: xs.dropWhile p) :
    (xs.takeWhile p ++ pre).dropWhile p = pre := by
  have hnil : (xs.takeWhile p).dropWhile p = [] :=
    List.dropWhile_eq_nil_iff.2 fun x hx => List.mem_takeWhile_imp hx
  rw [dropWhile_append_of_head (head?_of_prefix_dropWhile h), hnil, List.nil_append]

theorem takeWhile_of_le (h : xs.takeWhile p <+: ys) (hy : ys <+: xs) :
    ys.takeWhile p = xs.takeWhile p := by
  obtain ⟨pre, rfl⟩ := h
  refine takeWhile_cut ((List.prefix_append_right_inj (xs.takeWhile p)).1 ?_)
  rwa [List.takeWhile_append_dropWhile]

end

namespace Scan

def cut {α : Type} (pre : List Char) (s : Scan α) : Scan α := { s with rest := pre }

@[simp] theorem cut_mk {α : Type} (pre : List Char) (a : α) (spelling rest : List Char) :
    cut pre ⟨a, spelling, rest⟩ = ⟨a, spelling, pre⟩ := rfl

section
variable {c quote : Char} {cs pre : List Char}

theorem digits_of_le {xs ys : List Char} (h : (xs.take 5).takeWhile isHexDigit <+: ys)
    (hy : ys <+: xs) : (ys.take 5).takeWhile isHexDigit = (xs.take 5).takeWhile isHexDigit := by
  refine takeWhile_of_le (List.prefix_take_iff.2 ⟨h, ?_⟩) (hy.take 5)
  have hle := (List.takeWhile_prefix isHexDigit (l := xs.take 5)).length_le
  exact hle.trans (List.length_take_le 5 xs)

/-! A hexadecimal escape is told by its digits and whether a space stands right behind them. -/

theorem escape_of_digits {digits : List Char} (hc : isHexDigit c)
    (hd : ((digits ++ cs).take 5).takeWhile isHexDigit = digits)
    (hs : ∀ d ∈ cs.head?, ¬isSpace d) :
    escape c (digits ++ cs) = ⟨codePoint (hexValue (c :: digits)), c :: digits, cs⟩ := by
  unfold escape
  simp only [hc, if_true, hd, List.drop_left]
  cases cs with
  | nil => rfl
  | cons d cs => exact if_neg (hs d rfl)

theorem escape_of_space {digits : List Char} {d : Char} (hc : isHexDigit c)
    (hd : ((digits ++ d :: cs).take 5).takeWhile isHexDigit = digits) (hs : isSpace d) :
    escape c (digits ++ d :: cs) =
      ⟨codePoint (hexValue (c :: digits)), c :: digits ++ [d], cs⟩ := by
  unfold escape
  simp only [hc, if_true, hd, List.drop_left, hs]

theorem escape_cut (hp : pre <+: (escape c cs).rest) :
    ∃ xs, (escape c cs).spelling = c :: xs ∧ escape c (xs ++ pre) = (escape c cs).cut pre := by
  by_cases hc : isHexDigit c
  case neg =>
    unfold escape at hp ⊢
    rw [if_neg hc] at hp ⊢
    exact ⟨[], rfl, if_neg hc⟩
  generalize hd : (cs.take 5).takeWhile isHexDigit = digits
  obtain ⟨rest, rfl⟩ : digits <+: cs := by
    rw [← hd]
    exact (List.takeWhile_prefix _).trans (List.take_prefix 5 cs)
  have hdigits {ys : List Char} (hy : ys <+: rest) :
      ((digits ++ ys).take 5).takeWhile isHexDigit = digits := by
    refine (digits_of_le ?_ ((List.prefix_append_right_inj digits).2 hy)).trans hd
    rw [hd]
    exact List.prefix_append digits ys
  by_cases hs : ∀ d ∈ rest.head?, ¬isSpace d
  · rw [escape_of_digits hc hd hs] at hp ⊢
    have hhead : ∀ d ∈ pre.head?, ¬isSpace d := fun d h => hs d (mem_head?_of_le hp h)
    exact ⟨digits, rfl, escape_of_digits hc (hdigits hp) hhead⟩
  · obtain ⟨d, rest, rfl, hspace⟩ : ∃ d ds, rest = d :: ds ∧ isSpace d := by
      cases rest with
      | nil => simp at hs
      | cons d ds => exact ⟨d, ds, rfl, by simpa using hs⟩
    rw [escape_of_space hc hd hspace] at hp ⊢
    refine ⟨digits ++ [d], rfl, ?_⟩
    rw [List.append_assoc]
    exact escape_of_space hc (hdigits (List.cons_prefix_cons.2 ⟨rfl, hp⟩)) hspace

theorem name_of_le {us : List Char} (hu : name us = ⟨[], [], us⟩) (hp : pre <+: us)
    (hne : pre ≠ ['\\']) : name pre = ⟨[], [], pre⟩ := by
  obtain ⟨vs, rfl⟩ := hp
  rcases pre with _ | ⟨c, ps⟩
  · simp [name]
  by_cases hback : c = '\\'
  · subst hback
    obtain ⟨d, ds, rfl⟩ := List.exists_cons_of_ne_nil (l := ps) (by simpa using hne)
    by_cases hd : d = '\n'
    · rw [name, if_pos hd]
    · rw [List.cons_append, List.cons_append, name, if_neg hd] at hu
      cases hu
  · have hno {xs : List Char} : ∀ d ds, c = '\\' → xs = d :: ds → False :=
      fun _ _ h => (hback h).elim
    rw [List.cons_append, name.eq_2 _ _ hno] at hu
    rw [name.eq_2 _ _ hno]
    split at hu
    case isTrue => cases hu
    case isFalse h => rw [if_neg h]

theorem name_cut (hp : pre <+: (name cs).rest) (hne : pre ≠ ['\\']) :
    name ((name cs).spelling ++ pre) = (name cs).cut pre := by
  fun_induction name cs with
  | case1 cs => exact name_of_le (by simp [name]) hp hne
  | case2 c cs hc e ih =>
    change pre <+: (name e.rest).rest at hp
    have hrest : (name e.rest).spelling ++ pre <+: e.rest := by
      conv => rhs; rw [← spelling_name e.rest]
      exact (List.prefix_append_right_inj _).2 hp
    obtain ⟨xs, hxs, hesc⟩ := escape_cut hrest
    have htext : (push e.value ('\\' :: e.spelling) (name e.rest)).spelling ++ pre =
        '\\' :: c :: (xs ++ ((name e.rest).spelling ++ pre)) := by
      simp [push, hxs, e]
    rw [htext, name, if_neg hc, hesc]
    exact congrArg (push e.value ('\\' :: e.spelling)) (ih hp)
  | case3 c cs hno hc ih =>
    have hback : c ≠ '\\' := by
      rintro rfl
      contradiction
    change name (c :: ((name cs).spelling ++ pre)) = _
    rw [name.eq_2 _ _ (fun _ _ h => (hback h).elim), if_pos hc]
    exact congrArg (push c [c]) (ih hp)
  | case4 c cs hno hc => exact name_of_le (by rw [name.eq_2 _ _ hno, if_neg hc]) hp hne
  | case5 => exact name_of_le (by simp [name]) hp hne

theorem quoted_cut {s : Scan (List Char)} (h : quoted quote cs = some s) (hp : pre <+: s.rest) :
    quoted quote (s.spelling ++ pre) = some (s.cut pre) := by
  fun_induction quoted quote cs generalizing s with
  | case1 | case3 | case4 => contradiction
  | case2 cs =>
    cases h
    simp [quoted.eq_def]
  | case5 cs hq hn ih =>
    obtain ⟨t, ht, rfl⟩ := Option.map_eq_some_iff.1 h
    have hcut := ih ht hp
    change quoted quote ('\\' :: '\n' :: (t.spelling ++ pre)) = _
    simp only [quoted.eq_def quote ('\\' :: _), hq, hn, if_false, if_true, hcut]
    rfl
  | case6 d cs hn e hq hl =>
    rename_i ih
    obtain ⟨t, ht, rfl⟩ := Option.map_eq_some_iff.1 h
    have hcut := ih ht hp
    have hrest : t.spelling ++ pre <+: e.rest := by
      rw [← spelling_quoted ht]
      exact (List.prefix_append_right_inj _).2 hp
    obtain ⟨xs, hxs, hesc⟩ := escape_cut hrest
    have htext : (push e.value ('\\' :: e.spelling) t).spelling ++ pre =
        '\\' :: d :: (xs ++ (t.spelling ++ pre)) := by
      simp [push, hxs, e]
    rw [htext, quoted.eq_def]
    simp only [hq, hl, hn, if_false, if_true, hesc]
    exact congrArg (Option.map (push e.value ('\\' :: e.spelling))) hcut
  | case7 c cs hq hn he ih =>
    obtain ⟨t, ht, rfl⟩ := Option.map_eq_some_iff.1 h
    have hcut := ih ht hp
    change quoted quote (c :: (t.spelling ++ pre)) = _
    rw [quoted.eq_def]
    simp only [hq, hn, he, if_false, hcut]
    rfl

end

/-! Numerals, with a point and digits after it or without. -/

section
variable {cs pre ws ds : List Char} {d : Char}

theorem unsignedNumeral_point (hw : ∀ x ∈ ws, x.isDigit) (hd : d.isDigit) :
    unsignedNumeral (ws ++ '.' :: d :: ds) = ws ++ '.' :: d :: ds.takeWhile Char.isDigit := by
  have hpoint : Char.isDigit '.' = false := rfl
  simp [unsignedNumeral, List.takeWhile_append_of_pos hw, List.dropWhile_append_of_pos hw, hpoint, hd]

theorem unsignedNumeral_whole (hw : ∀ x ∈ ws, x.isDigit) (hn : ∀ x ∈ ds.head?, ¬x.isDigit)
    (hp : ∀ x xs, ds = '.' :: x :: xs → ¬x.isDigit) : unsignedNumeral (ws ++ ds) = ws := by
  have ht : (ws ++ ds).takeWhile Char.isDigit = ws := by
    rw [takeWhile_append_of_head hn, List.takeWhile_eq_self_iff.2 hw]
  have hr : (ws ++ ds).dropWhile Char.isDigit = ds := by
    rw [dropWhile_append_of_head hn, List.dropWhile_eq_nil_iff.2 hw, List.nil_append]
  unfold unsignedNumeral
  rw [ht, hr]
  split
  case h_1 x xs => exact if_neg (hp x xs rfl)
  case h_2 => rfl

theorem exists_unsignedNumeral (cs : List Char) : ∃ ws ds, cs = ws ++ ds ∧ (∀ x ∈ ws, x.isDigit) ∧
    ((∃ d es, ds = '.' :: d :: es ∧ d.isDigit) ∨
      (∀ x ∈ ds.head?, ¬x.isDigit) ∧ ∀ x xs, ds = '.' :: x :: xs → ¬x.isDigit) := by
  refine ⟨cs.takeWhile Char.isDigit, cs.dropWhile Char.isDigit,
    List.takeWhile_append_dropWhile.symm, fun x hx => List.mem_takeWhile_imp hx, ?_⟩
  have hhead := head?_of_prefix_dropWhile (List.prefix_refl (cs.dropWhile Char.isDigit))
  by_cases h : ∃ d es, cs.dropWhile Char.isDigit = '.' :: d :: es ∧ d.isDigit
  · exact .inl h
  · exact .inr ⟨hhead, fun x xs hx hd => h ⟨x, xs, hx, hd⟩⟩

theorem unsignedNumeral_cut (hp : unsignedNumeral cs ++ pre <+: cs) :
    unsignedNumeral (unsignedNumeral cs ++ pre) = unsignedNumeral cs := by
  obtain ⟨ws, ds, rfl, hw, ⟨d, es, rfl, hd⟩ | ⟨hhead, hpoint⟩⟩ := exists_unsignedNumeral cs
  · rw [unsignedNumeral_point hw hd] at hp ⊢
    simp only [List.append_assoc, List.cons_append, List.prefix_append_right_inj,
      List.cons_prefix_cons, true_and] at hp
    have htake := takeWhile_of_le (p := Char.isDigit) (List.prefix_append _ pre) hp
    rw [List.append_assoc, List.cons_append, List.cons_append, unsignedNumeral_point hw hd, htake]
  · rw [unsignedNumeral_whole hw hhead hpoint] at hp ⊢
    rw [List.prefix_append_right_inj] at hp
    refine unsignedNumeral_whole hw (fun x hx => hhead x (mem_head?_of_le hp hx)) ?_
    rintro x xs rfl
    obtain ⟨us, rfl⟩ := hp
    exact hpoint x (xs ++ us) rfl

theorem numeral_of_head (hplus : '+' ∉ cs.head?) (hminus : '-' ∉ cs.head?) :
    numeral cs = unsignedNumeral cs := by
  unfold numeral
  split
  case h_1 => exact absurd rfl hplus
  case h_2 => exact absurd rfl hminus
  case h_3 => rfl

theorem numeral_cut (hp : numeral cs ++ pre <+: cs) : numeral (numeral cs ++ pre) = numeral cs := by
  by_cases hplus : '+' ∈ cs.head?
  · obtain ⟨cs, rfl⟩ := List.head?_eq_some_iff.1 hplus
    exact congrArg ('+' :: ·) (unsignedNumeral_cut (List.cons_prefix_cons.1 hp).2)
  by_cases hminus : '-' ∈ cs.head?
  · obtain ⟨cs, rfl⟩ := List.head?_eq_some_iff.1 hminus
    exact congrArg ('-' :: ·) (unsignedNumeral_cut (List.cons_prefix_cons.1 hp).2)
  rw [numeral_of_head hplus hminus] at hp ⊢
  rw [numeral_of_head (fun h => hplus (mem_head?_of_le hp h))
    (fun h => hminus (mem_head?_of_le hp h)), unsignedNumeral_cut hp]

theorem startsDigits_of_isDigit (h : d.isDigit) (cs : List Char) : startsDigits (d :: cs) := by
  have hne : d ≠ '.' := by rintro rfl; contradiction
  simp [startsDigits, hne, h]

theorem startsDigits_mono {xs ys : List Char} (h : startsDigits xs) (hp : xs <+: ys) :
    startsDigits ys := by
  obtain ⟨us, rfl⟩ := hp
  rcases xs with _ | ⟨c, _ | ⟨d, xs⟩⟩
  · contradiction
  · have hc : c.isDigit := by
      by_cases hdot : c = '.' <;> simp_all [startsDigits]
    exact startsDigits_of_isDigit hc us
  · by_cases hdot : c = '.'
    · subst hdot
      exact h
    · simpa [startsDigits, hdot] using h

theorem startsDigits_unsignedNumeral (h : startsDigits cs) : startsDigits (unsignedNumeral cs) := by
  obtain ⟨ws, ds, rfl, hw, ⟨d, es, rfl, hd⟩ | ⟨hhead, hpoint⟩⟩ := exists_unsignedNumeral cs
  · rw [unsignedNumeral_point hw hd]
    cases ws with
    | nil => exact hd
    | cons w ws => exact startsDigits_of_isDigit (hw w List.mem_cons_self) _
  · rw [unsignedNumeral_whole hw hhead hpoint]
    cases ws with
    | nil =>
      unfold startsDigits at h
      split at h
      next d ds hds => exact absurd h (hpoint d ds hds)
      next c es _ hds => exact absurd h (hhead c (by rw [← List.nil_append ds, hds]; rfl))
      next => cases h
    | cons w ws => exact startsDigits_of_isDigit (hw w List.mem_cons_self) _

theorem startsNumber_of_head (hplus : '+' ∉ cs.head?) (hminus : '-' ∉ cs.head?) :
    startsNumber cs = startsDigits cs := by
  unfold startsNumber
  split
  case h_1 => exact absurd rfl hplus
  case h_2 => exact absurd rfl hminus
  case h_3 => rfl

theorem startsNumber_mono {xs ys : List Char} (h : startsNumber xs) (hp : xs <+: ys) :
    startsNumber ys := by
  rcases xs with _ | ⟨c, xs⟩
  · contradiction
  obtain ⟨us, rfl⟩ := hp
  have hdigits {zs : List Char} (hz : startsDigits zs) : startsDigits (zs ++ us) :=
    startsDigits_mono hz (List.prefix_append zs us)
  by_cases hplus : c = '+'
  · subst hplus
    exact @hdigits xs h
  by_cases hminus : c = '-'
  · subst hminus
    exact @hdigits xs h
  have hp : '+' ∉ (c :: xs).head? := fun h => hplus (Option.some.inj h)
  have hm : '-' ∉ (c :: xs).head? := fun h => hminus (Option.some.inj h)
  rw [startsNumber_of_head hp hm] at h
  rw [startsNumber_of_head (by exact hp) (by exact hm)]
  exact hdigits h

theorem startsNumber_numeral (h : startsNumber cs) : startsNumber (numeral cs) := by
  by_cases hplus : '+' ∈ cs.head?
  · obtain ⟨cs, rfl⟩ := List.head?_eq_some_iff.1 hplus
    exact startsDigits_unsignedNumeral (show startsDigits cs from h)
  by_cases hminus : '-' ∈ cs.head?
  · obtain ⟨cs, rfl⟩ := List.head?_eq_some_iff.1 hminus
    exact startsDigits_unsignedNumeral (show startsDigits cs from h)
  rw [startsNumber_of_head hplus hminus] at h
  have hle := unsignedNumeral_le cs
  rw [numeral_of_head hplus hminus, startsNumber_of_head
    (fun h => hplus (mem_head?_of_le hle h)) (fun h => hminus (mem_head?_of_le hle h))]
  exact startsDigits_unsignedNumeral h

end

/-! What starts a name or an escape does so in its own spelling, and in any text that starts alike. -/

section
variable {c : Char} {cs xs ys : List Char}

theorem startsEscape_mono (h : startsEscape xs) (hp : xs <+: ys) : startsEscape ys := by
  obtain ⟨us, rfl⟩ := hp
  unfold startsEscape at h
  split at h
  case h_1 => exact h
  case h_2 => contradiction

theorem startsName_hyphen (c : Char) (cs : List Char) :
    startsName ('-' :: c :: cs) = true ↔ isNameStart c ∨ c = '-' ∨ startsEscape (c :: cs) := by
  simp [startsName, or_assoc]

theorem startsName_of_ne (h : c ≠ '-') (cs : List Char) :
    startsName (c :: cs) = true ↔ isNameStart c ∨ startsEscape (c :: cs) := by
  simp [startsName, h]

theorem exists_cons_of_startsName {xs : List Char} (h : startsName ('-' :: xs)) :
    ∃ d ds, xs = d :: ds := by
  refine List.exists_cons_of_ne_nil ?_
  rintro rfl
  exact absurd h (by decide)

theorem startsName_mono (h : startsName xs) (hp : xs <+: ys) : startsName ys := by
  obtain ⟨us, rfl⟩ := hp
  rcases xs with _ | ⟨c, xs⟩
  · contradiction
  by_cases hc : c = '-'
  · subst hc
    obtain ⟨d, ds, rfl⟩ := exists_cons_of_startsName h
    rw [startsName_hyphen] at h
    refine (startsName_hyphen d (ds ++ us)).2 (h.imp_right (Or.imp_right fun h => ?_))
    exact startsEscape_mono h (List.prefix_append (d :: ds) us)
  · rw [startsName_of_ne hc] at h
    refine (startsName_of_ne hc (xs ++ us)).2 (h.imp_right fun h => ?_)
    exact startsEscape_mono h (List.prefix_append (c :: xs) us)

theorem spelling_name_of_isNameChar (h : isNameChar c) (cs : List Char) :
    (name (c :: cs)).spelling = c :: (name cs).spelling := by
  have hback : c ≠ '\\' := by
    rintro rfl
    contradiction
  rw [name.eq_2 _ _ (fun _ _ e => (hback e).elim), if_pos h]
  rfl

theorem startsEscape_spelling_name (h : startsEscape cs) : startsEscape (name cs).spelling := by
  unfold startsEscape at h
  split at h
  case h_1 c cs =>
    obtain ⟨xs, hxs, -⟩ := escape_cut (List.nil_prefix (l := (escape c cs).rest))
    have hc : c ≠ '\n' := by simpa using h
    have hspelling : (name ('\\' :: c :: cs)).spelling =
        '\\' :: c :: (xs ++ (name (escape c cs).rest).spelling) := by
      rw [name, if_neg hc]
      simp [push, hxs]
    rw [hspelling]
    exact h
  case h_2 => contradiction

theorem startsName_spelling_name (h : startsName cs) : startsName (name cs).spelling := by
  have escaped {ds : List Char} (hd : startsEscape ds) :
      ∃ es, (name ds).spelling = '\\' :: es ∧ startsEscape ('\\' :: es) := by
    have hs := startsEscape_spelling_name hd
    unfold startsEscape at hs
    split at hs
    case h_1 e es he => exact ⟨e :: es, he, hs⟩
    case h_2 => contradiction
  rcases cs with _ | ⟨c, cs⟩
  · contradiction
  by_cases hc : c = '-'
  · subst hc
    obtain ⟨d, ds, rfl⟩ := exists_cons_of_startsName h
    rw [spelling_name_of_isNameChar (by decide)]
    rcases (startsName_hyphen d ds).1 h with hd | rfl | hd
    · rw [spelling_name_of_isNameChar (by simp [isNameChar, hd])]
      exact (startsName_hyphen _ _).2 (.inl hd)
    · rw [spelling_name_of_isNameChar (by decide)]
      exact (startsName_hyphen _ _).2 (.inr (.inl rfl))
    · obtain ⟨es, hes, he⟩ := escaped hd
      rw [hes]
      exact (startsName_hyphen _ _).2 (.inr (.inr he))
  · rcases (startsName_of_ne hc cs).1 h with hd | hd
    · rw [spelling_name_of_isNameChar (by simp [isNameChar, hd])]
      exact (startsName_of_ne hc _).2 (.inl hd)
    · obtain ⟨es, hes, he⟩ := escaped hd
      rw [hes]
      exact (startsName_of_ne (by decide) _).2 (.inr he)

end

theorem opensHash_spelling_name {cs : List Char}
    (h : cs.head?.any isNameChar || startsEscape cs) (us : List Char) :
    ((name cs).spelling ++ us).head?.any isNameChar || startsEscape ((name cs).spelling ++ us) := by
  rw [Bool.or_eq_true] at h ⊢
  refine h.imp (fun h => ?_) fun h => ?_
  · obtain ⟨c, hc, hname⟩ := (Option.any_eq_true _ _).1 h
    obtain ⟨cs, rfl⟩ := List.head?_eq_some_iff.1 hc
    rw [spelling_name_of_isNameChar hname]
    exact hname
  · exact startsEscape_mono (startsEscape_spelling_name h) (List.prefix_append _ us)

theorem find?_marks_cut {cs ys : List Char} {m : List Char × Token.Kind}
    (h : (marks.find? fun m => m.1.isPrefixOf cs) = some m) (hm : m.1 <+: ys) (hy : ys <+: cs) :
    (marks.find? fun m => m.1.isPrefixOf ys) = some m := by
  obtain ⟨hpre, as, bs, hmarks, hnot⟩ := List.find?_eq_some_iff_append.1 h
  refine List.find?_eq_some_iff_append.2 ⟨List.isPrefixOf_iff_prefix.2 hm, as, bs, hmarks, fun a ha => ?_⟩
  have hno := hnot a ha
  simp only [Bool.not_eq_true', ← Bool.not_eq_true, List.isPrefixOf_iff_prefix] at hno ⊢
  exact fun hp => hno (hp.trans hy)

/-- A token comes out the same when the text behind it is cut short, unless that leaves a backslash
alone. -/
theorem token_cut {cs pre : List Char} {s : Scan (Token.Kind × String)} (h : token cs = .ok s)
    (hp : pre <+: s.rest) (hne : pre ≠ ['\\']) :
    token (s.spelling ++ pre) = .ok (s.cut pre) := by
  have hpre : s.spelling ++ pre <+: cs := by
    rw [← spelling_token h]
    exact (List.prefix_append_right_inj _).2 hp
  have hnumber : ¬startsNumber cs → ¬startsNumber (s.spelling ++ pre) :=
    mt fun hn => startsNumber_mono hn hpre
  have hstart : ¬startsName cs → ¬startsName (s.spelling ++ pre) :=
    mt fun hn => startsName_mono hn hpre
  cases token_eq_ok.1 h with
  | endOfInput =>
    rw [List.prefix_nil.1 hp]
    rfl
  | space hs =>
    rw [List.cons_append, token_space hs, takeWhile_cut hp, dropWhile_cut hp]
    rfl
  | string hq hk => exact token_string hq (quoted_cut hk hp)
  | hash hopen =>
    have hopen' := opensHash_spelling_name hopen pre
    rw [List.cons_append, token_hash hopen', name_cut hp hne]
    rfl
  | number hnum =>
    have hnum' := startsNumber_mono (startsNumber_numeral hnum) (List.prefix_append _ pre)
    rw [token_number hnum', numeral_cut hpre, List.drop_left]
    rfl
  | name hnum hname =>
    have hname' := startsName_mono (startsName_spelling_name hname) (List.prefix_append _ pre)
    rw [token_name (hnumber hnum) hname', name_cut hp hne]
    rfl
  | @mark c cs m hc hnum hname hm =>
    have hnum' := hnumber hnum
    have hname' := hstart hname
    have hmark := find?_marks_cut hm (List.prefix_append m.1 pre) hpre
    have hall : ∀ m ∈ marks, m.1 ≠ [] := by decide
    obtain ⟨d, ds, hd⟩ := List.exists_cons_of_ne_nil
      (List.append_ne_nil_of_left_ne_nil (hall m (List.mem_of_find?_eq_some hm)) pre)
    dsimp only at hpre hnum' hname' ⊢
    rw [hd] at hpre hnum' hname' hmark ⊢
    obtain ⟨rfl, -⟩ := List.cons_prefix_cons.1 hpre
    rw [token_mark hc hnum' hname' hmark, ← hd, List.drop_left]
    rfl

end Scan
end CssSelector
