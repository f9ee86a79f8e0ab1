import CssSelector.Token.Lexeme
import Mathlib

/-!
Scanning a text with more text behind it. A token comes out the same if what stands behind the text
cannot be taken for a part of it (`Scan.token_append`).
-/

set_option autoImplicit false

namespace CssSelector

theorem takeWhile_append_of_head {α : Type} {p : α → Bool} {us : List α}
    (h : ∀ u ∈ us.head?, ¬p u) (xs : List α) :
    (xs ++ us).takeWhile p = xs.takeWhile p := by
  induction xs with
  | nil =>
    cases us with
    | nil => rfl
    | cons u us => exact List.takeWhile_cons_of_neg (h u rfl)
  | cons x xs ih => simp [List.takeWhile_cons, ih]

theorem dropWhile_append_of_head {α : Type} {p : α → Bool} {us : List α}
    (h : ∀ u ∈ us.head?, ¬p u) (xs : List α) :
    (xs ++ us).dropWhile p = xs.dropWhile p ++ us := by
  induction xs with
  | nil =>
    cases us with
    | nil => rfl
    | cons u us => exact List.dropWhile_cons_of_neg (h u rfl)
  | cons x xs ih =>
    rw [List.cons_append, List.dropWhile_cons, List.dropWhile_cons]
    split
    · exact ih
    · rfl

theorem span_append {α : Type} {p : α → Bool} {xs us : List α}
    (h : xs.dropWhile p = [] → ∀ u ∈ us.head?, ¬p u) :
    (xs ++ us).takeWhile p = xs.takeWhile p ∧ (xs ++ us).dropWhile p = xs.dropWhile p ++ us := by
  by_cases hnil : xs.dropWhile p = []
  · exact ⟨takeWhile_append_of_head (h hnil) xs, dropWhile_append_of_head (h hnil) xs⟩
  · have htake : (xs.takeWhile p).length ≠ xs.length := by
      have hlen := congrArg List.length (List.takeWhile_append_dropWhile (p := p) (l := xs))
      have hpos := List.length_pos_iff.2 hnil
      rw [List.length_append] at hlen
      omega
    rw [List.takeWhile_append, if_neg htake, List.dropWhile_append, if_neg (by simpa using hnil)]
    exact ⟨rfl, rfl⟩

namespace Scan

def before {α : Type} (us : List Char) (s : Scan α) : Scan α := { s with rest := s.rest ++ us }

@[simp] theorem before_mk {α : Type} (us : List Char) (a : α) (spelling rest : List Char) :
    before us ⟨a, spelling, rest⟩ = ⟨a, spelling, rest ++ us⟩ := rfl

theorem isNameChar_of_isDigit {c : Char} (h : c.isDigit) : isNameChar c := by
  simp [isNameChar, h]

theorem isNameChar_of_isHexDigit {c : Char} (h : isHexDigit c) : isNameChar c := by
  unfold isHexDigit at h
  unfold isNameChar isNameStart
  simp only [Char.isAlpha, Char.isUpper, Char.isLower, Char.le_def, UInt32.le_iff_toNat_le,
    Bool.or_eq_true, Bool.and_eq_true, decide_eq_true_eq] at *
  simp only [Char.reduceVal, UInt32.reduceToNat] at *
  grind

/-- Nothing in front goes on with a name, a numeral or a mark. -/
structure Stops (us : List Char) : Prop where
  name : ∀ c ∈ us.head?, ¬isNameChar c
  mark : ∀ c ∈ us.head?, c ∉ ['\\', '=', ':', '.']

namespace Stops
variable {us : List Char} (h : Stops us)
include h

theorem digit : ∀ c ∈ us.head?, ¬c.isDigit := fun c hc hd => h.name c hc (isNameChar_of_isDigit hd)

theorem hexDigit : ∀ c ∈ us.head?, ¬isHexDigit c :=
  fun c hc hd => h.name c hc (isNameChar_of_isHexDigit hd)

theorem backslash : '\\' ∉ us.head? := fun hc => h.mark _ hc (by simp)

theorem point : '.' ∉ us.head? := fun hc => h.mark _ hc (by simp)

theorem second : ∀ c ∈ us.head?, c ∉ ['=', ':'] := fun c hc hm => h.mark c hc (by grind)

end Stops

/-- Nor with white space. -/
structure Breaks (us : List Char) : Prop extends Stops us where
  space : ∀ c ∈ us.head?, ¬isSpace c

theorem breaks_cons {c : Char} (h : c ∈ [',', ')', '/']) (us : List Char) : Breaks (c :: us) := by
  have hall : ∀ c ∈ [',', ')', '/'],
      ¬isNameChar c ∧ ¬isSpace c ∧ c ∉ ['\\', '=', ':', '.'] :=
    List.all_iff_forall_prop.1 (by decide)
  obtain ⟨hn, hs, hm⟩ := hall c h
  refine ⟨⟨?_, ?_⟩, ?_⟩ <;> rintro _ ⟨⟩ <;> assumption

theorem head?_take_subset {α : Type} {us : List α} {n : Nat} {u : α} (h : u ∈ (us.take n).head?) :
    u ∈ us.head? := by
  cases us with
  | nil => simp at h
  | cons v us =>
    cases n with
    | zero => simp at h
    | succ n => exact h

section
variable {us : List Char}

theorem escape_append (hd : ∀ c ∈ us.head?, ¬isHexDigit c) {c : Char} {cs : List Char}
    (hs : (escape c cs).rest = [] → ∀ c ∈ us.head?, ¬isSpace c) :
    escape c (cs ++ us) = (escape c cs).before us := by
  have hnil (hc : isHexDigit c) (hr : cs.drop ((cs.take 5).takeWhile isHexDigit).length = []) :
      (escape c cs).rest = [] := by simp [escape, hc, hr]
  unfold escape
  split
  case isFalse => rfl
  case isTrue hc =>
    have ht : ((cs ++ us).take 5).takeWhile isHexDigit = (cs.take 5).takeWhile isHexDigit := by
      rw [List.take_append]
      exact takeWhile_append_of_head (fun u hu => hd u (head?_take_subset hu)) _
    have hle : ((cs.take 5).takeWhile isHexDigit).length ≤ cs.length :=
      ((List.takeWhile_prefix _).trans (List.take_prefix 5 cs)).length_le
    dsimp only
    rw [ht, List.drop_append_of_le_length hle]
    cases hr : cs.drop ((cs.take 5).takeWhile isHexDigit).length with
    | nil =>
      cases us with
      | nil => rfl
      | cons u us => simp [hs (hnil hc hr) u rfl]
    | cons d rest =>
      simp only [List.cons_append]
      split <;> rfl

theorem name_of_head (hn : ∀ c ∈ us.head?, ¬isNameChar c) (he : '\\' ∉ us.head?) :
    name us = ⟨[], [], us⟩ := by
  cases us with
  | nil => simp [name]
  | cons u us =>
    have hne : ∀ d ds, u = '\\' → us = d :: ds → False := fun _ _ h _ => he (by simp [h])
    rw [name.eq_2 _ _ hne, if_neg (hn u rfl)]

theorem name_of_isNameChar {xs : List Char} (hx : ∀ c ∈ xs, isNameChar c)
    (hn : ∀ c ∈ us.head?, ¬isNameChar c) (he : '\\' ∉ us.head?) :
    name (xs ++ us) = ⟨xs, xs, us⟩ := by
  induction xs with
  | nil => exact name_of_head hn he
  | cons x xs ih =>
    obtain ⟨hc, hxs⟩ := List.forall_mem_cons.1 hx
    have hne : x ≠ '\\' := by
      rintro rfl
      contradiction
    rw [List.cons_append, name.eq_2 _ _ (fun _ _ h => (hne h).elim), if_pos hc, ih hxs]
    rfl

/-- A backslash that is the last character is no part of a name, but would be with more behind it. -/
theorem name_append (hn : ∀ c ∈ us.head?, ¬isNameChar c) (he : '\\' ∉ us.head?)
    {cs : List Char} (hr : (name cs).rest ≠ ['\\'])
    (hs : (name cs).rest = [] → ∀ c ∈ us.head?, ¬isSpace c) :
    name (cs ++ us) = (name cs).before us := by
  have hd : ∀ c ∈ us.head?, ¬isHexDigit c := fun c hc h => hn c hc (isNameChar_of_isHexDigit h)
  fun_induction name cs with
  | case1 cs => simp [name]
  | case2 c cs hc e ih =>
    have hopen (he : e.rest = []) : (name e.rest).rest = [] := by simp [he, name]
    rw [List.cons_append, List.cons_append, name, if_neg hc, escape_append hd fun he => hs (hopen he)]
    exact congrArg (push e.value ('\\' :: e.spelling)) (ih hr hs)
  | case3 c cs hno hc ih =>
    have hne : c ≠ '\\' := by
      rintro rfl
      contradiction
    rw [List.cons_append, name.eq_2 _ _ (fun _ _ h => (hne h).elim), if_pos hc]
    exact congrArg (push c [c]) (ih hr hs)
  | case4 c cs hno hc =>
    have hne : ∀ d ds, c = '\\' → cs ++ us = d :: ds → False := by
      rintro d ds rfl h
      cases cs with
      | nil => exact hr rfl
      | cons d cs => exact hno d cs rfl rfl
    rw [List.cons_append, name.eq_2 _ _ hne, if_neg hc]
    rfl
  | case5 => exact name_of_head hn he

theorem quoted_append (hd : ∀ c ∈ us.head?, ¬isHexDigit c) {quote : Char} {cs : List Char}
    {s : Scan (List Char)} (h : quoted quote cs = some s) :
    quoted quote (cs ++ us) = some (s.before us) := by
  fun_induction quoted quote cs generalizing s with
  | case1 | case3 | case4 => contradiction
  | case2 cs =>
    cases h
    simp [quoted.eq_def]
  | case5 cs hq hn ih =>
    obtain ⟨t, ht, rfl⟩ := Option.map_eq_some_iff.1 h
    simp only [List.cons_append, quoted.eq_def quote ('\\' :: _), hq, hn, if_false, if_true, ih ht]
    rfl
  | case6 d cs hn e hq hl =>
    rename_i ih
    obtain ⟨t, ht, rfl⟩ := Option.map_eq_some_iff.1 h
    have hrest : e.rest ≠ [] := by
      intro hnil
      rw [hnil, quoted] at ht
      contradiction
    rw [List.cons_append, List.cons_append, quoted.eq_def]
    simp only [hq, hl, hn, if_false, if_true, escape_append hd fun he => absurd he hrest]
    exact congrArg (Option.map (push e.value ('\\' :: e.spelling))) (ih ht)
  | case7 c cs hq hn he ih =>
    obtain ⟨t, ht, rfl⟩ := Option.map_eq_some_iff.1 h
    rw [List.cons_append, quoted.eq_def]
    simp only [hq, hn, he, if_false, ih ht]
    rfl

theorem unsignedNumeral_append (hd : ∀ c ∈ us.head?, ¬c.isDigit) (hp : '.' ∉ us.head?)
    (cs : List Char) : unsignedNumeral (cs ++ us) = unsignedNumeral cs := by
  unfold unsignedNumeral
  rw [takeWhile_append_of_head hd, dropWhile_append_of_head hd]
  rcases cs.dropWhile Char.isDigit with _ | ⟨c, _ | ⟨d, ds⟩⟩
  · rcases us with _ | ⟨u, us⟩
    · rfl
    · have hne : u ≠ '.' := fun h => hp (by simp [h])
      simp [hne]
  · rcases us with _ | ⟨u, us⟩
    · rfl
    · have hu : u.isDigit = false := by simpa using hd u rfl
      by_cases hc : c = '.'
      · simp [hc, hu]
      · simp [hc]
  · by_cases hc : c = '.'
    · simp [hc, takeWhile_append_of_head hd]
    · simp [hc]

theorem numeral_append (hd : ∀ c ∈ us.head?, ¬c.isDigit) (hp : '.' ∉ us.head?) {cs : List Char}
    (hne : cs ≠ []) : numeral (cs ++ us) = numeral cs := by
  cases cs with
  | nil => contradiction
  | cons c cs =>
    by_cases hplus : c = '+'
    · subst hplus
      exact congrArg ('+' :: ·) (unsignedNumeral_append hd hp cs)
    by_cases hminus : c = '-'
    · subst hminus
      exact congrArg ('-' :: ·) (unsignedNumeral_append hd hp cs)
    have h := unsignedNumeral_append hd hp (c :: cs)
    rw [List.cons_append] at h ⊢
    simp [numeral, hplus, hminus, h]

theorem startsDigits_append (hd : ∀ c ∈ us.head?, ¬c.isDigit) (hp : '.' ∉ us.head?)
    (cs : List Char) : startsDigits (cs ++ us) = startsDigits cs := by
  rcases cs with _ | ⟨c, _ | ⟨d, cs⟩⟩
  · rcases us with _ | ⟨u, us⟩
    · rfl
    · have hu : u.isDigit = false := by simpa using hd u rfl
      have hne : u ≠ '.' := fun h => hp (by simp [h])
      simp [startsDigits, hu, hne]
  · rcases us with _ | ⟨u, us⟩
    · rfl
    · have hu : u.isDigit = false := by simpa using hd u rfl
      by_cases hc : c = '.'
      · simp [startsDigits, hc, hu]
      · simp [startsDigits, hc]
  · by_cases hc : c = '.'
    · simp [startsDigits, hc]
    · simp [startsDigits, hc]

theorem startsNumber_append (hd : ∀ c ∈ us.head?, ¬c.isDigit) (hp : '.' ∉ us.head?)
    {cs : List Char} (hne : cs ≠ []) : startsNumber (cs ++ us) = startsNumber cs := by
  cases cs with
  | nil => contradiction
  | cons c cs =>
    by_cases hplus : c = '+'
    · subst hplus
      exact startsDigits_append hd hp cs
    by_cases hminus : c = '-'
    · subst hminus
      exact startsDigits_append hd hp cs
    have h := startsDigits_append hd hp (c :: cs)
    rw [List.cons_append] at h ⊢
    simp [startsNumber, hplus, hminus, h]

theorem startsEscape_append {cs : List Char} (hne : cs ≠ []) (hcs : cs ≠ ['\\']) :
    startsEscape (cs ++ us) = startsEscape cs := by
  rcases cs with _ | ⟨c, _ | ⟨d, cs⟩⟩
  · contradiction
  · have hc : c ≠ '\\' := by simpa using hcs
    simp [startsEscape, hc]
  · by_cases hc : c = '\\'
    · simp [startsEscape, hc]
    · simp [startsEscape, hc]

theorem startsName_append (hn : ∀ c ∈ us.head?, ¬isNameChar c) (he : '\\' ∉ us.head?)
    {cs : List Char} (hne : cs ≠ []) (hcs : cs ≠ ['\\']) (hmcs : cs ≠ ['-', '\\']) :
    startsName (cs ++ us) = startsName cs := by
  cases cs with
  | nil => contradiction
  | cons c cs =>
    by_cases hc : c = '-'
    · subst hc
      rcases cs with _ | ⟨d, ds⟩
      · rcases us with _ | ⟨u, us⟩
        · rfl
        · have hu : isNameStart u = false ∧ u.isDigit = false ∧ u ≠ '-' := by
            simpa [isNameChar, and_assoc] using hn u rfl
          have hne : u ≠ '\\' := fun h => he (by simp [h])
          simp [startsName, startsEscape, hu, hne, show isNameStart '-' = false from rfl]
      · have h : startsEscape (d :: ds ++ us) = startsEscape (d :: ds) :=
          startsEscape_append (by simp) (by simpa using hmcs)
        exact congrArg (isNameStart d || d = '-' || ·) h
    · have h : startsEscape (c :: cs ++ us) = startsEscape (c :: cs) := startsEscape_append hne hcs
      rw [List.cons_append] at h ⊢
      simp [startsName, hc, h]

/-- Marks are told by two characters, of which the second one is an equals sign or a colon. -/
theorem isPrefixOf_append (hm : ∀ c ∈ us.head?, c ∉ ['=', ':']) {m : List Char × Token.Kind}
    (h : m ∈ marks) {cs : List Char} (hne : cs ≠ []) :
    m.1.isPrefixOf (cs ++ us) = m.1.isPrefixOf cs := by
  have hall : ∀ m ∈ marks, m.1.length ≤ 2 ∧ ∀ y ∈ m.1.tail, y ∈ ['=', ':'] := by
    simp [marks]
  obtain ⟨hlen, htail⟩ := hall m h
  rcases cs with _ | ⟨c, cs⟩
  · exact absurd rfl hne
  rcases m with ⟨_ | ⟨x, _ | ⟨y, _ | _⟩⟩, kind⟩
  · rfl
  · simp [List.isPrefixOf]
  · rcases cs with _ | ⟨d, cs⟩
    · rcases us with _ | ⟨u, us⟩
      · rfl
      · have hy : y ≠ u := by
          rintro rfl
          exact hm y rfl (htail y (by simp))
        simp [List.isPrefixOf, hy]
    · simp [List.isPrefixOf]
  · simp at hlen

theorem find?_marks_append (hm : ∀ c ∈ us.head?, c ∉ ['=', ':']) {cs : List Char} (hne : cs ≠ []) :
    (marks.find? fun m => m.1.isPrefixOf (cs ++ us)) =
      marks.find? fun m => m.1.isPrefixOf cs := by
  have find?_congr {p q : List Char × Token.Kind → Bool} (ms : List (List Char × Token.Kind))
      (h : ∀ m ∈ ms, p m = q m) : ms.find? p = ms.find? q := by
    induction ms with
    | nil => rfl
    | cons m ms ih =>
      obtain ⟨hm, hms⟩ := List.forall_mem_cons.1 h
      rw [List.find?_cons, List.find?_cons, hm, ih hms]
  exact find?_congr marks fun m h => isPrefixOf_append hm h hne

end

theorem startsNumber_of_isDigit {c : Char} (h : c.isDigit) (cs : List Char) :
    startsNumber (c :: cs) := by
  have hplus : c ≠ '+' := by rintro rfl; contradiction
  have hminus : c ≠ '-' := by rintro rfl; contradiction
  have hpoint : c ≠ '.' := by rintro rfl; contradiction
  simp [startsNumber, startsDigits, hplus, hminus, hpoint, h]

theorem startsName_of_isNameStart {c : Char} (h : isNameStart c) (cs : List Char) :
    startsName (c :: cs) := by
  have hminus : c ≠ '-' := by rintro rfl; contradiction
  simp [startsName, hminus, h]

theorem not_startsNumber_of_isNameStart {c : Char} (h : isNameStart c) (cs : List Char) :
    ¬startsNumber (c :: cs) := by
  intro hn
  have hc : c.isDigit ∨ c = '+' ∨ c = '-' ∨ c = '.' := by
    unfold startsNumber startsDigits at hn
    grind
  rcases hc with hd | rfl | rfl | rfl
  · have hne : c ≠ '_' := by rintro rfl; contradiction
    unfold isNameStart at h
    simp only [Char.isDigit, Char.isAlpha, Char.isUpper, Char.isLower, Char.toNat,
      UInt32.le_iff_toNat_le, Bool.or_eq_true, Bool.and_eq_true, decide_eq_true_eq] at h hd
    simp only [Char.reduceVal, UInt32.reduceToNat] at h hd
    grind
  all_goals contradiction

/-! The sorts of tokens, told by what stands in front. -/

def openings : List Char := [' ', '\t', '\n', '\r', '\x0c', '"', '\'', '#']

section
variable {c : Char} {cs : List Char}

theorem not_mem_openings (h : c ∉ openings) :
    isSpace c = false ∧ c ≠ '"' ∧ c ≠ '\'' ∧ c ≠ '#' := by
  simpa [openings, isSpace, and_assoc] using h

theorem token_space (h : isSpace c) : token (c :: cs) =
    .ok ⟨(.whitespace, " "), c :: cs.takeWhile isSpace, cs.dropWhile isSpace⟩ := by
  rw [token, if_pos h]

theorem token_spaces {xs us : List Char} (hne : xs ≠ []) (hx : ∀ c ∈ xs, isSpace c)
    (hu : ∀ c ∈ us.head?, ¬isSpace c) :
    token (xs ++ us) = .ok ⟨(.whitespace, " "), xs, us⟩ := by
  obtain ⟨x, xs, rfl⟩ := List.exists_cons_of_ne_nil hne
  obtain ⟨hc, hxs⟩ := List.forall_mem_cons.1 hx
  have htake : us.takeWhile isSpace = [] := takeWhile_append_of_head hu []
  have hdrop : us.dropWhile isSpace = us := dropWhile_append_of_head hu []
  rw [List.cons_append, token_space hc, List.takeWhile_append_of_pos hxs,
    List.dropWhile_append_of_pos hxs, htake, hdrop, List.append_nil]

theorem token_string {s : Scan (List Char)} (hc : c = '"' ∨ c = '\'')
    (h : quoted c cs = some s) : token (c :: cs) =
    .ok ⟨(.string, String.ofList s.value), c :: s.spelling, s.rest⟩ := by
  have hs : isSpace c = false := by rcases hc with rfl | rfl <;> rfl
  simp [token, hs, hc, h]

theorem token_hash (h : cs.head?.any isNameChar || startsEscape cs) : token ('#' :: cs) =
    .ok ⟨(.hash, String.ofList (name cs).value), '#' :: (name cs).spelling, (name cs).rest⟩ := by
  simp [token, show isSpace '#' = false from rfl, Bool.or_eq_true_iff.1 h]

theorem token_number (h : startsNumber cs) : token cs =
    .ok ⟨(.number, String.ofList (numeral cs)), numeral cs, cs.drop (numeral cs).length⟩ := by
  cases cs with
  | nil => contradiction
  | cons c cs =>
    have hc : c.isDigit ∨ c = '+' ∨ c = '-' ∨ c = '.' := by
      unfold startsNumber startsDigits at h
      grind
    have hall : ∀ x ∈ openings, ¬(x.isDigit ∨ x = '+' ∨ x = '-' ∨ x = '.') :=
      List.all_iff_forall_prop.1 (by decide)
    have hs := not_mem_openings fun hmem => hall c hmem hc
    simp [token, hs, h]

theorem token_name (hn : ¬startsNumber cs) (h : startsName cs) : token cs =
    .ok ⟨(.ident, String.ofList (name cs).value), (name cs).spelling, (name cs).rest⟩ := by
  cases cs with
  | nil => contradiction
  | cons c cs =>
    have hc : isNameStart c ∨ c = '-' ∨ c = '\\' := by
      unfold startsName startsEscape at h
      grind
    have hall : ∀ x ∈ openings, ¬(isNameStart x ∨ x = '-' ∨ x = '\\') :=
      List.all_iff_forall_prop.1 (by decide)
    have hs := not_mem_openings fun hmem => hall c hmem hc
    simp [token, hs, hn, h]

theorem token_word {xs us : List Char} (hc : isNameStart c) (hx : ∀ x ∈ xs, isNameChar x)
    (hn : ∀ u ∈ us.head?, ¬isNameChar u) (he : '\\' ∉ us.head?) :
    token (c :: xs ++ us) = .ok ⟨(.ident, String.ofList (c :: xs)), c :: xs, us⟩ := by
  have hall : ∀ x ∈ c :: xs, isNameChar x :=
    List.forall_mem_cons.2 ⟨by simp [isNameChar, hc], hx⟩
  rw [List.cons_append, token_name (not_startsNumber_of_isNameStart hc _)
    (startsName_of_isNameStart hc _), ← List.cons_append, name_of_isNameChar hall hn he]

theorem token_mark (hc : c ∉ openings) (hn : ¬startsNumber (c :: cs)) (hs : ¬startsName (c :: cs))
    {m : List Char × Token.Kind} (h : (marks.find? fun m => m.1.isPrefixOf (c :: cs)) = some m) :
    token (c :: cs) = .ok ⟨(m.2, String.ofList m.1), m.1, (c :: cs).drop m.1.length⟩ := by
  simp [token, not_mem_openings hc, hn, hs, h]

theorem token_colon (h : ':' ∉ cs.head?) :
    token (':' :: cs) = .ok ⟨(.colon, ":"), [':'], cs⟩ := by
  have hm : (marks.find? fun m => m.1.isPrefixOf (':' :: cs)) = some ([':'], .colon) := by
    cases cs with
    | nil => rfl
    | cons d ds =>
      have hd : ':' ≠ d := fun e => h (by simp [← e])
      simp [marks, List.find?, List.isPrefixOf, hd]
  have hn : startsNumber (':' :: cs) = false := rfl
  have hs : startsName (':' :: cs) = false := rfl
  exact token_mark (by decide) (by simp [hn]) (by simp [hs]) hm

/-- The token in front of a text. There is one constructor for each sort of tokens. -/
inductive IsToken : List Char → Scan (Token.Kind × String) → Prop
  | endOfInput : IsToken [] ⟨(.endOfInput, ""), [], []⟩
  | space {c : Char} {cs : List Char} : isSpace c →
      IsToken (c :: cs) ⟨(.whitespace, " "), c :: cs.takeWhile isSpace, cs.dropWhile isSpace⟩
  | string {c : Char} {cs : List Char} {s : Scan (List Char)} : c = '"' ∨ c = '\'' →
      quoted c cs = some s →
      IsToken (c :: cs) ⟨(.string, String.ofList s.value), c :: s.spelling, s.rest⟩
  | hash {cs : List Char} : (cs.head?.any isNameChar || startsEscape cs) →
      IsToken ('#' :: cs)
        ⟨(.hash, String.ofList (name cs).value), '#' :: (name cs).spelling, (name cs).rest⟩
  | number {cs : List Char} : startsNumber cs →
      IsToken cs
        ⟨(.number, String.ofList (numeral cs)), numeral cs, cs.drop (numeral cs).length⟩
  | name {cs : List Char} : ¬startsNumber cs → startsName cs →
      IsToken cs ⟨(.ident, String.ofList (name cs).value), (name cs).spelling, (name cs).rest⟩
  | mark {c : Char} {cs : List Char} {m : List Char × Token.Kind} : c ∉ openings →
      ¬startsNumber (c :: cs) → ¬startsName (c :: cs) →
      (marks.find? fun m => m.1.isPrefixOf (c :: cs)) = some m →
      IsToken (c :: cs) ⟨(m.2, String.ofList m.1), m.1, (c :: cs).drop m.1.length⟩

theorem token_eq_ok {s : Scan (Token.Kind × String)} : token cs = .ok s ↔ IsToken cs s := by
  constructor
  · intro h
    unfold token at h
    split at h
    · cases h
      exact .endOfInput
    next c cs =>
    repeat' split at h
    all_goals cases h
    · exact .space ‹_›
    · next hquote _ _ hs => exact .string (by simpa using hquote) hs
    · next hopen =>
      rw [Bool.and_eq_true, decide_eq_true_eq] at hopen
      obtain ⟨rfl, hopen⟩ := hopen
      exact .hash hopen
    · exact .number ‹_›
    · exact .name ‹_› ‹_›
    · next hspace hquote _ hnum hname _ m kind hm =>
      have hhash : c ≠ '#' := by
        rintro rfl
        have hnone : (marks.find? fun m => m.1.isPrefixOf ('#' :: cs)) = none := rfl
        rw [hnone] at hm
        contradiction
      have hc : c ∉ openings := by
        simpa [openings, isSpace, and_assoc, hhash] using And.intro hspace hquote
      exact .mark hc hnum hname hm
  · rintro (_ | hc | ⟨hc, hs⟩ | hopen | hnum | ⟨hnum, hname⟩ | ⟨hc, hnum, hname, hm⟩)
    · rfl
    · exact token_space hc
    · exact token_string hc hs
    · exact token_hash hopen
    · exact token_number hnum
    · exact token_name hnum hname
    · exact token_mark hc hnum hname hm

end

section
variable {us : List Char}

/-- What may go on with white space behind it, if it goes up to there. -/
def OpenToSpace (s : Scan (Token.Kind × String)) : Prop :=
  s.rest = [] ∧ s.value.1 ∈ [.whitespace, .ident, .hash]

/-- A token comes out the same in front of a text that cannot be taken for a part of it. A backslash
behind it could be: with more behind that it is an escape. -/
theorem token_append (hu : Stops us) {cs : List Char} (hne : cs ≠ [])
    {s : Scan (Token.Kind × String)} (h : token cs = .ok s) (hr : s.rest ≠ ['\\'])
    (hs : OpenToSpace s → ∀ c ∈ us.head?, ¬isSpace c) :
    token (cs ++ us) = .ok (s.before us) := by
  have hnumber := startsNumber_append hu.digit hu.point hne
  have hback₁ : cs ≠ ['\\'] := by
    rintro rfl
    contradiction
  have hback₂ : cs ≠ ['-', '\\'] := by
    rintro rfl
    cases h
    exact hr rfl
  have hstart := startsName_append hu.name hu.backslash hne hback₁ hback₂
  cases token_eq_ok.1 h with
  | endOfInput => contradiction
  | space hc =>
    obtain ⟨htake, hdrop⟩ := span_append fun hnil => hs ⟨hnil, by simp⟩
    rw [List.cons_append, token_space hc, htake, hdrop]
    rfl
  | string hq hk => exact token_string hq (quoted_append hu.hexDigit hk)
  | @hash cs hopen =>
    have hcs : cs ≠ [] ∧ cs ≠ ['\\'] := by
      constructor <;> rintro rfl <;> contradiction
    have hopen' : (cs ++ us).head?.any isNameChar || startsEscape (cs ++ us) := by
      obtain ⟨d, ds, rfl⟩ := List.exists_cons_of_ne_nil hcs.1
      rw [startsEscape_append hcs.1 hcs.2]
      exact hopen
    rw [List.cons_append, token_hash hopen',
      name_append hu.name hu.backslash hr fun hnil => hs ⟨hnil, by simp⟩]
    rfl
  | number hnum =>
    rw [token_number (hnumber.trans hnum), numeral_append hu.digit hu.point hne,
      List.drop_append_of_le_length (numeral_le cs).length_le]
    rfl
  | name hnum hname =>
    rw [token_name (by rwa [hnumber]) (hstart.trans hname),
      name_append hu.name hu.backslash hr fun hnil => hs ⟨hnil, by simp⟩]
    rfl
  | @mark c cs m hc hnum hname hm =>
    have hpre : m.1.isPrefixOf (c :: cs) = true := by simpa using List.find?_some hm
    have hle := (List.isPrefixOf_iff_prefix.1 hpre).length_le
    have hmarks := (find?_marks_append hu.second hne).trans hm
    rw [List.cons_append] at hnumber hstart hmarks ⊢
    rw [← hnumber] at hnum
    rw [← hstart] at hname
    rw [token_mark hc hnum hname hmarks, ← List.cons_append, List.drop_append_of_le_length hle]
    rfl

end

end Scan
end CssSelector
