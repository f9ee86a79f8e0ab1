import CssSelector.Proofs.Hexadecimal
import CssSelector.Proofs.Lexing.Spelling
import CssSelector.Text.Basic
import CssSelector.Text.Offset

set_option autoImplicit false

namespace CssSelector

namespace Text

def capital (k : Nat) : Char := Char.ofNat (65 + k)

theorem toLower_eq_or_capital (c : Char) : c.toLower = c ∨ ∃ k < 26, c = capital k := by
  by_cases h : 65 ≤ c.toNat ∧ c.toNat ≤ 90
  · right
    refine ⟨c.toNat - 65, by omega, ?_⟩
    rw [capital, Nat.add_sub_cancel' h.1, Char.ofNat_toNat]
  · left
    refine Char.toNat_inj.1 ?_
    rw [toNat_toLower, if_neg h]

theorem toLower_blind {α : Type} (p : Char → α)
    (h : ∀ k < 26, p (capital k).toLower = p (capital k)) (c : Char) : p c.toLower = p c := by
  obtain hc | ⟨k, hk, rfl⟩ := toLower_eq_or_capital c
  · rw [hc]
  · exact h k hk

def SameLetters : List Char → List Char → Prop := List.Forall₂ fun c d => c.toLower = d.toLower

section
variable {c d : Char} {cs ds xs ys : List Char}

theorem sameLetters_iff : SameLetters cs ds ↔ cs.map Char.toLower = ds.map Char.toLower := by
  rw [SameLetters, ← List.forall₂_eq_eq_eq, List.forall₂_map_left_iff, List.forall₂_map_right_iff]

theorem isAlpha_toLower (c : Char) : c.toLower.isAlpha = c.isAlpha :=
  toLower_blind Char.isAlpha (by decide) c

theorem isDigit_toLower (c : Char) : c.toLower.isDigit = c.isDigit :=
  toLower_blind Char.isDigit (by decide) c

theorem utf8Size_toLower (c : Char) : c.toLower.utf8Size = c.utf8Size :=
  toLower_blind Char.utf8Size (by decide) c

theorem congr_of_blind {α : Type} {p : Char → α} (hp : ∀ c, p c.toLower = p c)
    (h : c.toLower = d.toLower) : p c = p d := by
  rw [← hp c, h, hp d]

theorem eq_of_toLower_eq (h : c.toLower = d.toLower) (hd : ¬d.isAlpha) : c = d := by
  have hself {x : Char} (hx : ¬x.isAlpha) : x.toLower = x := by
    have hall : ∀ k < 26, (capital k).isAlpha := by decide
    refine (toLower_eq_or_capital x).resolve_right ?_
    rintro ⟨k, hk, rfl⟩
    exact hx (hall k hk)
  have hc : ¬c.isAlpha := by rwa [congr_of_blind isAlpha_toLower h]
  rw [← hself hc, h, hself hd]

theorem eq_iff_of_toLower_eq {x : Char} (h : c.toLower = d.toLower) (hx : ¬x.isAlpha) :
    c = x ↔ d = x :=
  ⟨fun hc => eq_of_toLower_eq (hc ▸ h.symm) hx, fun hd => eq_of_toLower_eq (hd ▸ h) hx⟩

namespace SameLetters

theorem refl (cs : List Char) : SameLetters cs cs := sameLetters_iff.2 rfl

theorem symm (h : SameLetters cs ds) : SameLetters ds cs := sameLetters_iff.2 (sameLetters_iff.1 h).symm

theorem append (h : SameLetters cs ds) (h' : SameLetters xs ys) :
    SameLetters (cs ++ xs) (ds ++ ys) := List.rel_append h h'

theorem take (h : SameLetters cs ds) (n : Nat) : SameLetters (cs.take n) (ds.take n) :=
  List.forall₂_take n h

theorem drop (h : SameLetters cs ds) (n : Nat) : SameLetters (cs.drop n) (ds.drop n) :=
  List.forall₂_drop n h

theorem byteSize_eq (h : SameLetters cs ds) : byteSize cs = byteSize ds := by
  induction h with
  | nil => rfl
  | cons hc _ ih => rw [byteSize, byteSize, congr_of_blind utf8Size_toLower hc, ih]

theorem span {p : Char → Bool} (hp : ∀ c, p c.toLower = p c) (h : SameLetters cs ds) :
    SameLetters (cs.takeWhile p) (ds.takeWhile p) ∧ SameLetters (cs.dropWhile p) (ds.dropWhile p) := by
  induction h with
  | nil => exact ⟨.nil, .nil⟩
  | cons hc hcs ih =>
    rw [List.takeWhile_cons, List.takeWhile_cons, List.dropWhile_cons, List.dropWhile_cons,
      congr_of_blind hp hc]
    split
    · exact ⟨.cons hc ih.1, ih.2⟩
    · exact ⟨.nil, .cons hc hcs⟩

theorem exists_of_cons (h : SameLetters (c :: cs) ds) :
    ∃ d ds', ds = d :: ds' ∧ c.toLower = d.toLower ∧ SameLetters cs ds' := by
  obtain ⟨d, ds', hd, h', rfl⟩ := List.forall₂_cons_left_iff.1 h
  exact ⟨d, ds', rfl, hd, h'⟩

theorem exists_of_mark (h : SameLetters (c :: cs) ds) (hc : ¬c.isAlpha) :
    ∃ ds', ds = c :: ds' ∧ SameLetters cs ds' := by
  obtain ⟨d, ds', rfl, hd, h'⟩ := h.exists_of_cons
  exact ⟨ds', by rw [eq_of_toLower_eq hd.symm hc], h'⟩

theorem fold_eq (h : SameLetters cs ds) : fold (String.ofList cs) = fold (String.ofList ds) := by
  rw [fold, fold, String.toList_ofList, String.toList_ofList, sameLetters_iff.1 h]

end SameLetters
end
end Text

namespace Scan

open Text

theorem isSpace_toLower (c : Char) : isSpace c.toLower = isSpace c :=
  toLower_blind isSpace (by decide) c

theorem isHexDigit_toLower (c : Char) : isHexDigit c.toLower = isHexDigit c :=
  toLower_blind isHexDigit (by decide) c

theorem isNameStart_toLower (c : Char) : isNameStart c.toLower = isNameStart c :=
  toLower_blind isNameStart (by decide) c

theorem isNameChar_toLower (c : Char) : isNameChar c.toLower = isNameChar c :=
  toLower_blind isNameChar (by decide) c

structure SameScan (s t : Scan (List Char)) : Prop where
  value : SameLetters s.value t.value
  spelling : SameLetters s.spelling t.spelling
  rest : SameLetters s.rest t.rest

section
variable {c d : Char} {cs ds : List Char}

theorem hexValue_eq_of_sameLetters (h : SameLetters cs ds) (hc : ∀ c ∈ cs, isHexDigit c) :
    hexValue cs = hexValue ds := by
  unfold hexValue
  generalize 0 = n
  induction h generalizing n with
  | nil => rfl
  | @cons c d cs ds hcd _ ih =>
    obtain ⟨hc, hcs⟩ := List.forall_mem_cons.1 hc
    rw [← isHexDigit_toLower] at hc
    have hdigit : hexDigit c = hexDigit d := by
      rw [← (hexDigit_toLower hc).2, hcd, (hexDigit_toLower (hcd ▸ hc)).2]
    rw [List.foldl_cons, List.foldl_cons, hdigit]
    exact ih hcs _

theorem escape_of_sameLetters (hc : c.toLower = d.toLower) (h : SameLetters cs ds) :
    (escape c cs).value.toLower = (escape d ds).value.toLower ∧
      SameLetters (escape c cs).spelling (escape d ds).spelling ∧
      SameLetters (escape c cs).rest (escape d ds).rest := by
  have hhex : isHexDigit c = isHexDigit d := congr_of_blind isHexDigit_toLower hc
  unfold escape
  rw [hhex]
  split
  case isFalse => exact ⟨hc, .cons hc .nil, h⟩
  case isTrue hd =>
    have hdigits := ((h.take 5).span isHexDigit_toLower).1
    have hvalue := hexValue_eq_of_sameLetters (.cons hc hdigits)
      (List.forall_mem_cons.2 ⟨hhex ▸ hd, fun x hx => List.mem_takeWhile_imp hx⟩)
    dsimp only
    generalize (cs.take 5).takeWhile isHexDigit = xs at hdigits hvalue
    generalize (ds.take 5).takeWhile isHexDigit = ys at hdigits hvalue
    have hdrop := h.drop xs.length
    rw [hvalue, ← List.Forall₂.length_eq hdigits]
    generalize cs.drop xs.length = us at hdrop
    generalize ds.drop xs.length = vs at hdrop
    cases hdrop with
    | nil => exact ⟨rfl, .cons hc hdigits, .nil⟩
    | @cons u v us vs hu huv =>
      dsimp only
      rw [congr_of_blind isSpace_toLower hu]
      split
      · exact ⟨rfl, SameLetters.append (.cons hc hdigits) (.cons hu .nil), huv⟩
      · exact ⟨rfl, .cons hc hdigits, .cons hu huv⟩

theorem SameScan.push {s t : Scan (List Char)} (h : SameScan s t) (hc : c.toLower = d.toLower)
    (hcs : SameLetters cs ds) : SameScan (s.push c cs) (t.push d ds) :=
  ⟨.cons hc h.value, hcs.append h.spelling, h.rest⟩

theorem name_of_sameLetters (h : SameLetters cs ds) : SameScan (name cs) (name ds) := by
  fun_induction name cs generalizing ds with
  | case1 cs =>
    obtain ⟨ds, rfl, h₁⟩ := h.exists_of_mark (by decide)
    obtain ⟨ds, rfl, -⟩ := h₁.exists_of_mark (by decide)
    rw [name, if_pos rfl]
    exact ⟨.nil, .nil, h⟩
  | case2 c cs hc =>
    rename_i ih
    obtain ⟨ds, rfl, h₁⟩ := h.exists_of_mark (by decide)
    obtain ⟨d, ds, rfl, hd, h₂⟩ := h₁.exists_of_cons
    have hd' : d ≠ '\n' := (eq_iff_of_toLower_eq hd (by decide)).not.1 hc
    obtain ⟨hvalue, hspelling, hrest⟩ := escape_of_sameLetters hd h₂
    rw [name, if_neg hd']
    exact (ih hrest).push hvalue (.cons rfl hspelling)
  | case3 c cs hno hc ih =>
    obtain ⟨d, ds, rfl, hd, h'⟩ := h.exists_of_cons
    rw [congr_of_blind isNameChar_toLower hd] at hc
    rw [name.eq_2 _ _ fun _ _ hback _ => ne_backslash_of_isNameChar hc hback, if_pos hc]
    exact (ih h').push hd (.cons hd .nil)
  | case4 c cs hno hc =>
    obtain ⟨d, ds, rfl, hd, h'⟩ := h.exists_of_cons
    rw [congr_of_blind isNameChar_toLower hd] at hc
    have hno' : ∀ x xs, d = '\\' → ds = x :: xs → False := by
      rintro x xs rfl rfl
      obtain ⟨y, ys, rfl, -⟩ := h'.symm.exists_of_cons
      exact hno y ys (eq_of_toLower_eq hd (by decide)) rfl
    rw [name.eq_2 _ _ hno', if_neg hc]
    exact ⟨.nil, .nil, h⟩
  | case5 =>
    obtain rfl := List.forall₂_nil_left_iff.1 h
    rw [name]
    exact ⟨.nil, .nil, .nil⟩

theorem exists_quoted_of_sameLetters {quote : Char} (hq : ¬quote.isAlpha) (h : SameLetters cs ds)
    {s : Scan (List Char)} (hs : quoted quote cs = some s) :
    ∃ t, quoted quote ds = some t ∧ SameScan s t := by
  fun_induction quoted quote cs generalizing ds s with
  | case1 | case3 | case4 => contradiction
  | case2 cs =>
    cases hs
    obtain ⟨ds, rfl, h'⟩ := h.exists_of_mark hq
    exact ⟨⟨[], [quote], ds⟩, by simp [quoted.eq_def], .nil, .refl _, h'⟩
  | case5 cs hne hn ih =>
    obtain ⟨s, hs', rfl⟩ := Option.map_eq_some_iff.1 hs
    obtain ⟨ds, rfl, h₁⟩ := h.exists_of_mark (by decide)
    obtain ⟨ds, rfl, h₂⟩ := h₁.exists_of_mark (by decide)
    obtain ⟨t, ht, hst⟩ := ih h₂ hs'
    refine ⟨t.after ['\\', '\n'], ?_, hst.value, .append (.refl _) hst.spelling, hst.rest⟩
    simp only [quoted.eq_def quote ('\\' :: _), hne, hn, if_false, if_true, ht]
    rfl
  | case6 c cs hc e hne hn =>
    rename_i ih
    obtain ⟨s, hs', rfl⟩ := Option.map_eq_some_iff.1 hs
    obtain ⟨ds, rfl, h₁⟩ := h.exists_of_mark (by decide)
    obtain ⟨d, ds, rfl, hd, h₂⟩ := h₁.exists_of_cons
    have hd' : d ≠ '\n' := (eq_iff_of_toLower_eq hd (by decide)).not.1 hc
    obtain ⟨hvalue, hspelling, hrest⟩ := escape_of_sameLetters hd h₂
    obtain ⟨t, ht, hst⟩ := ih hrest hs'
    refine ⟨t.push (escape d ds).value ('\\' :: (escape d ds).spelling), ?_,
      hst.push hvalue (.cons rfl hspelling)⟩
    simp only [quoted.eq_def quote ('\\' :: _), hne, hn, hd', if_false, if_true, ht]
    rfl
  | case7 c cs hne hn hback ih =>
    obtain ⟨s, hs', rfl⟩ := Option.map_eq_some_iff.1 hs
    obtain ⟨d, ds, rfl, hd, h'⟩ := h.exists_of_cons
    have hother {x : Char} (hx : ¬x.isAlpha) : c ≠ x → d ≠ x := (eq_iff_of_toLower_eq hd hx).not.1
    obtain ⟨t, ht, hst⟩ := ih h' hs'
    refine ⟨t.push d [d], ?_, hst.push hd (.cons hd .nil)⟩
    simp only [quoted.eq_def quote (d :: _), hother hq hne, hother (by decide) hn,
      hother (by decide) hback, if_false, ht]
    rfl

/-! What a text starts with. -/

theorem startsEscape_of_sameLetters (h : SameLetters cs ds) : startsEscape cs = startsEscape ds := by
  have himp {cs ds : List Char} (h : SameLetters cs ds) (hs : startsEscape cs) : startsEscape ds := by
    unfold startsEscape at hs
    split at hs
    case h_1 c cs =>
      obtain ⟨ds, rfl, h₁⟩ := h.exists_of_mark (by decide)
      obtain ⟨d, ds, rfl, hd, -⟩ := h₁.exists_of_cons
      have hne : c = '\n' ↔ d = '\n' := eq_iff_of_toLower_eq hd (by decide)
      simpa [startsEscape, hne] using hs
    case h_2 => contradiction
  exact Bool.eq_iff_iff.2 ⟨himp h, himp h.symm⟩

theorem startsName_of_sameLetters (h : SameLetters cs ds) : startsName cs = startsName ds := by
  have hstart {c d : Char} (hc : c.toLower = d.toLower) : isNameStart c = isNameStart d :=
    congr_of_blind isNameStart_toLower hc
  have hescape := startsEscape_of_sameLetters h
  cases h with
  | nil => rfl
  | @cons c d cs ds hc h =>
    by_cases hdash : c = '-'
    · subst hdash
      obtain rfl := eq_of_toLower_eq hc.symm (by decide)
      have hescape' := startsEscape_of_sameLetters h
      cases h with
      | nil => rfl
      | @cons x y _ _ hx _ =>
        have hdash : x = '-' ↔ y = '-' := eq_iff_of_toLower_eq hx (by decide)
        simp only [startsName, hstart hx, hescape', hdash]
    · have hdash' : d ≠ '-' := (eq_iff_of_toLower_eq hc (by decide)).not.1 hdash
      rw [startsName.eq_2 _ _ fun _ _ hd _ => hdash hd, startsName.eq_2 _ _ fun _ _ hd _ => hdash' hd,
        hstart hc, hescape]

theorem startsDigits_of_sameLetters (h : SameLetters cs ds) : startsDigits cs = startsDigits ds := by
  have hdigit {c d : Char} (hc : c.toLower = d.toLower) : c.isDigit = d.isDigit :=
    congr_of_blind isDigit_toLower hc
  cases h with
  | nil => rfl
  | @cons c d cs ds hc h =>
    by_cases hpoint : c = '.'
    · subst hpoint
      obtain rfl := eq_of_toLower_eq hc.symm (by decide)
      cases h with
      | nil => rfl
      | cons hx _ => exact hdigit hx
    · have hpoint' : d ≠ '.' := (eq_iff_of_toLower_eq hc (by decide)).not.1 hpoint
      rw [startsDigits.eq_2 _ _ fun _ _ hd _ => hpoint hd,
        startsDigits.eq_2 _ _ fun _ _ hd _ => hpoint' hd, hdigit hc]

theorem unsignedNumeral_of_sameLetters (h : SameLetters cs ds) :
    SameLetters (unsignedNumeral cs) (unsignedNumeral ds) := by
  obtain ⟨hwhole, hrest⟩ := h.span isDigit_toLower
  unfold unsignedNumeral
  dsimp only
  generalize cs.takeWhile Char.isDigit = xs at hwhole
  generalize ds.takeWhile Char.isDigit = ys at hwhole
  generalize cs.dropWhile Char.isDigit = us at hrest
  generalize ds.dropWhile Char.isDigit = vs at hrest
  split
  next c us =>
    obtain ⟨vs, rfl, h₁⟩ := hrest.exists_of_mark (by decide)
    obtain ⟨d, vs, rfl, hd, h₂⟩ := h₁.exists_of_cons
    change SameLetters _ (if d.isDigit then ys ++ '.' :: d :: vs.takeWhile Char.isDigit else ys)
    rw [congr_of_blind isDigit_toLower hd]
    split
    · exact hwhole.append (.cons rfl (.cons hd (h₂.span isDigit_toLower).1))
    · exact hwhole
  next hno =>
    have hno' : ∀ d ws, vs = '.' :: d :: ws → False := by
      rintro d ws rfl
      obtain ⟨us, rfl, h₁⟩ := hrest.symm.exists_of_mark (by decide)
      obtain ⟨c, us, rfl, -, -⟩ := h₁.exists_of_cons
      exact hno c us rfl
    split
    next d ws => exact (hno' d ws rfl).elim
    next => exact hwhole

theorem number_of_sameLetters (h : SameLetters cs ds) :
    startsNumber cs = startsNumber ds ∧ SameLetters (numeral cs) (numeral ds) := by
  cases h with
  | nil => exact ⟨rfl, .nil⟩
  | @cons c d cs ds hc h =>
    have hall : SameLetters (c :: cs) (d :: ds) := .cons hc h
    by_cases hsign : c = '+' ∨ c = '-'
    · obtain rfl | rfl := hsign
      all_goals
        obtain rfl := eq_of_toLower_eq hc.symm (by decide)
        exact ⟨startsDigits_of_sameLetters h, .cons rfl (unsignedNumeral_of_sameLetters h)⟩
    · obtain ⟨hplus, hminus⟩ := not_or.1 hsign
      have hplus' : d ≠ '+' := (eq_iff_of_toLower_eq hc (by decide)).not.1 hplus
      have hminus' : d ≠ '-' := (eq_iff_of_toLower_eq hc (by decide)).not.1 hminus
      have hother {x y : Char} {xs : List Char} (hx : x ≠ y) : ∀ ys, x :: xs = y :: ys → False :=
        fun _ h => hx (List.cons.inj h).1
      rw [startsNumber.eq_3 _ (hother hplus) (hother hminus), numeral.eq_3 _ (hother hplus) (hother hminus),
        startsNumber.eq_3 _ (hother hplus') (hother hminus'),
        numeral.eq_3 _ (hother hplus') (hother hminus')]
      exact ⟨startsDigits_of_sameLetters hall, unsignedNumeral_of_sameLetters hall⟩

theorem isPrefixOf_of_sameLetters {m : List Char} (hm : ∀ x ∈ m, ¬x.isAlpha) (h : SameLetters cs ds) :
    m.isPrefixOf cs = m.isPrefixOf ds := by
  induction m generalizing cs ds with
  | nil => cases cs <;> cases ds <;> rfl
  | cons x m ih =>
    obtain ⟨hx, hm⟩ := List.forall_mem_cons.1 hm
    cases h with
    | nil => rfl
    | cons hc h =>
      have hhead := eq_iff_of_toLower_eq hc hx
      simp only [List.isPrefixOf, ih hm h, Bool.beq_eq_decide_eq, eq_comm (a := x), hhead]

theorem find?_marks_of_sameLetters (h : SameLetters cs ds) :
    (marks.find? fun m => m.1.isPrefixOf cs) = marks.find? fun m => m.1.isPrefixOf ds := by
  have hall : ∀ m ∈ marks, ∀ x ∈ m.1, ¬x.isAlpha := by simp [marks]
  exact List.find?_congr fun m hm => isPrefixOf_of_sameLetters (hall m hm) h

/-- What is scanned in front of two such texts: the same kind of token, of the same length. -/
structure SameToken (s t : Scan (Token.Kind × String)) : Prop where
  kind : t.value.1 = s.value.1
  text : fold t.value.2 = fold s.value.2
  spelling : SameLetters s.spelling t.spelling
  rest : SameLetters s.rest t.rest

theorem exists_token_of_sameLetters (h : SameLetters cs ds) {s : Scan (Token.Kind × String)}
    (hs : token cs = .ok s) : ∃ t, token ds = .ok t ∧ SameToken s t := by
  simp only [token_eq_ok] at hs ⊢
  cases hs with
  | endOfInput =>
    obtain rfl := List.forall₂_nil_left_iff.1 h
    exact ⟨_, .endOfInput, rfl, rfl, .nil, .nil⟩
  | space hc =>
    obtain ⟨d, ds, rfl, hd, h'⟩ := h.exists_of_cons
    rw [congr_of_blind isSpace_toLower hd] at hc
    obtain ⟨hsp, hrest⟩ := h'.span isSpace_toLower
    exact ⟨_, .space hc, rfl, rfl, .cons hd hsp, hrest⟩
  | @string c cs s hc hs =>
    have hq : ¬c.isAlpha := by rcases hc with rfl | rfl <;> decide
    obtain ⟨ds, rfl, h'⟩ := h.exists_of_mark hq
    obtain ⟨t, ht, hst⟩ := exists_quoted_of_sameLetters hq h' hs
    exact ⟨_, .string hc ht, rfl, hst.value.fold_eq.symm, .cons rfl hst.spelling, hst.rest⟩
  | @hash cs hopen =>
    obtain ⟨ds, rfl, h'⟩ := h.exists_of_mark (by decide)
    have hst := name_of_sameLetters h'
    have hhead : cs.head?.any isNameChar = ds.head?.any isNameChar := by
      cases h' with
      | nil => rfl
      | cons hc _ => exact congr_of_blind isNameChar_toLower hc
    have hopen' : ds.head?.any isNameChar || startsEscape ds := by
      rwa [← startsEscape_of_sameLetters h', ← hhead]
    exact ⟨_, .hash hopen', rfl, hst.value.fold_eq.symm, .cons rfl hst.spelling, hst.rest⟩
  | number hn =>
    obtain ⟨hstart, hnumeral⟩ := number_of_sameLetters h
    refine ⟨_, .number (hstart ▸ hn), rfl, hnumeral.fold_eq.symm, hnumeral, ?_⟩
    rw [List.Forall₂.length_eq hnumeral]
    exact h.drop _
  | name hn hs =>
    have hst := name_of_sameLetters h
    exact ⟨_, .name ((number_of_sameLetters h).1 ▸ hn) (startsName_of_sameLetters h ▸ hs), rfl,
      hst.value.fold_eq.symm, hst.spelling, hst.rest⟩
  | @mark c cs m hc hn hs hm =>
    have hmarks := find?_marks_of_sameLetters h
    have hnum := (number_of_sameLetters h).1
    have hname := startsName_of_sameLetters h
    have hdrop := h.drop m.1.length
    obtain ⟨d, ds, rfl, hd, -⟩ := h.exists_of_cons
    have hd' : d ∉ openings := by
      have hall : ∀ x ∈ openings, ¬x.isAlpha := by simp [openings]
      intro hmem
      exact hc (eq_of_toLower_eq hd (hall d hmem) ▸ hmem)
    exact ⟨_, .mark hd' (hnum ▸ hn) (hname ▸ hs) (hmarks ▸ hm), rfl, rfl, .refl _, hdrop⟩

end
end Scan
end CssSelector
