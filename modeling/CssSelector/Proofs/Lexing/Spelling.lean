import CssSelector.Proofs.Hexadecimal
import CssSelector.Proofs.Lexing

/-!
The spellings of names and strings. A character has many: itself where that is allowed, a backslash
and itself, or a backslash and its code point. Each text that spells a name behind a number sign, on
its own or in quotes is lexed as one token with that name.
-/

set_option autoImplicit false

namespace CssSelector

open Text

namespace Scan

/-- The spellings of a character that every name and every string may have. -/
inductive Spelling : Char → List Char → Prop
  | itself {c : Char} : isNameChar c → Spelling c [c]
  | escaped {c : Char} : ¬ isHexDigit c → c ≠ '\n' → Spelling c ['\\', c]
  | codePoint {c s : Char} {ds : List Char} : c ≠ '\x00' → HexDigits ds c.toNat → ds.length ≤ 6 →
      isSpace s → Spelling c ('\\' :: (ds ++ [s]))

inductive SpellsName : List Char → List Char → Prop
  | nil : SpellsName [] []
  | cons {c : Char} {s cs us : List Char} : Spelling c s → SpellsName cs us →
      SpellsName (c :: cs) (s ++ us)

/-- The inside of a string. Two lines may be joined anywhere between characters. -/
inductive SpellsString (quote : Char) : List Char → List Char → Prop
  | nil : SpellsString quote [] []
  | cons {c : Char} {s cs us : List Char} : Spelling c s → SpellsString quote cs us →
      SpellsString quote (c :: cs) (s ++ us)
  | plain {c : Char} {cs us : List Char} : c ≠ quote → c ≠ '\\' → c ≠ '\n' →
      SpellsString quote cs us → SpellsString quote (c :: cs) (c :: us)
  | join {cs us : List Char} : SpellsString quote cs us → SpellsString quote cs ('\\' :: '\n' :: us)

theorem codePoint_toNat {c : Char} (h : c ≠ '\x00') : codePoint c.toNat = c := by
  have hne : c.toNat ≠ 0 := by
    intro h0
    refine h ?_
    rw [← Char.ofNat_toNat c, h0]
  have hvalid : c.toNat.isValidChar := c.valid
  rw [codePoint, if_pos ⟨hne, hvalid⟩, Char.ofNat_toNat]

theorem isHexDigit_of_isSpace {c : Char} (h : isSpace c) : ¬ isHexDigit c := by
  have hall : ∀ c ∈ [' ', '\t', '\n', '\r', '\x0c'], ¬ isHexDigit c :=
    List.all_iff_forall_prop.1 (by decide)
  exact hall c (by simpa [isSpace, or_assoc] using h)

section
variable {c x s : Char} {xs cs us ws : List Char}

/-- Six digits are as many as an escape has, and fewer are ended by the space behind them. -/
theorem escape_of_hexDigits (hc : c ≠ '\x00') (hx : HexDigits (x :: xs) c.toNat)
    (hlen : (x :: xs).length ≤ 6) (hs : isSpace s) (us : List Char) :
    escape x (xs ++ s :: us) = ⟨c, x :: (xs ++ [s]), us⟩ := by
  obtain ⟨hhex, hrest⟩ := List.forall_mem_cons.1 hx.isHexDigit
  have htake : ((xs ++ s :: us).take 5).takeWhile isHexDigit = xs := by
    have hshort : xs.length ≤ 5 := by simpa [Nat.lt_succ_iff] using hlen
    have hhead : ∀ u ∈ ((s :: us).take (5 - xs.length)).head?, ¬ isHexDigit u := by
      intro u hu
      obtain rfl : s = u := by simpa using head?_take_subset hu
      exact isHexDigit_of_isSpace hs
    rw [List.take_append, List.take_of_length_le hshort, takeWhile_append_of_head hhead,
      List.takeWhile_eq_self_iff.2 hrest]
  unfold escape
  dsimp only
  rw [if_pos hhex, htake, List.drop_left]
  simp [hs, hx.hexValue_eq, codePoint_toNat hc]

theorem Spelling.eq_or_exists_escape {s : List Char} (h : Spelling c s) :
    s = [c] ∧ isNameChar c ∨ ∃ x xs, s = '\\' :: x :: xs ∧ x ≠ '\n' ∧
      ∀ us, escape x (xs ++ us) = ⟨c, x :: xs, us⟩ := by
  cases h with
  | itself hc => exact .inl ⟨rfl, hc⟩
  | escaped hhex hline =>
    refine .inr ⟨c, [], rfl, hline, fun us => ?_⟩
    rw [escape, if_neg hhex]
    rfl
  | @codePoint s ds hc hds hlen hs =>
    obtain ⟨x, xs, rfl⟩ := List.exists_cons_of_ne_nil hds.ne_nil
    have hline : x ≠ '\n' := by
      rintro rfl
      exact absurd (hds.isHexDigit _ List.mem_cons_self) (by decide)
    refine .inr ⟨x, xs ++ [s], rfl, hline, fun us => ?_⟩
    rw [List.append_assoc]
    exact escape_of_hexDigits hc hds hlen hs us

theorem Spelling.opensName {s : List Char} (h : Spelling c s) (us : List Char) :
    (s ++ us).head?.any isNameChar || startsEscape (s ++ us) := by
  obtain ⟨rfl, hc⟩ | ⟨x, xs, rfl, hline, -⟩ := h.eq_or_exists_escape
  · simp [hc]
  · simp [startsEscape, hline]

theorem Spelling.startsName {s : List Char} (h : Spelling c s) (hc : s ≠ [c] ∨ isNameStart c)
    (us : List Char) : ¬ startsNumber (s ++ us) ∧ startsName (s ++ us) := by
  obtain ⟨rfl, -⟩ | ⟨x, xs, rfl, hline, -⟩ := h.eq_or_exists_escape
  · have hstart : isNameStart c := hc.resolve_left (not_not_intro rfl)
    exact ⟨not_startsNumber_of_isNameStart hstart us, startsName_of_isNameStart hstart us⟩
  · refine ⟨Bool.false_ne_true, ?_⟩
    simp [Scan.startsName, startsEscape, hline]

theorem ne_backslash_of_isNameChar (h : isNameChar c) : c ≠ '\\' := by
  rintro rfl
  contradiction

theorem name_of_spellsName (h : SpellsName cs us) (hn : ∀ c ∈ ws.head?, ¬ isNameChar c)
    (he : '\\' ∉ ws.head?) : name (us ++ ws) = ⟨cs, us, ws⟩ := by
  induction h with
  | nil => exact name_of_head hn he
  | @cons c s cs us hs _ ih =>
    obtain ⟨rfl, hc⟩ | ⟨x, xs, rfl, hline, hescape⟩ := hs.eq_or_exists_escape
    · have hne := ne_backslash_of_isNameChar hc
      rw [List.singleton_append, List.cons_append, name.eq_2 _ _ (fun _ _ h => (hne h).elim),
        if_pos hc, ih]
      rfl
    · rw [List.append_assoc, List.cons_append, List.cons_append, name, if_neg hline, hescape]
      simp [ih, push]

theorem SpellsName.spellsString (h : SpellsName cs us) {quote : Char} :
    SpellsString quote cs us := by
  induction h with
  | nil => exact .nil
  | cons hs _ ih => exact .cons hs ih

theorem quoted_plain {quote : Char} (hq : c ≠ quote) (he : c ≠ '\\') (hl : c ≠ '\n') :
    quoted quote (c :: cs) = (quoted quote cs).map (push c [c]) := by
  rw [quoted.eq_def]
  simp [hq, he, hl]

theorem quoted_escape {quote : Char} (hq : quote ≠ '\\') (hl : x ≠ '\n') :
    quoted quote ('\\' :: x :: xs) =
      (quoted quote (escape x xs).rest).map
        (push (escape x xs).value ('\\' :: (escape x xs).spelling)) := by
  rw [quoted.eq_def]
  simp [Ne.symm hq, hl]

theorem quoted_join {quote : Char} (hq : quote ≠ '\\') :
    quoted quote ('\\' :: '\n' :: cs) = (quoted quote cs).map (after ['\\', '\n']) := by
  rw [quoted.eq_def]
  simp [Ne.symm hq]

theorem quoted_of_spellsString {quote : Char} (hq : quote = '"' ∨ quote = '\'')
    (h : SpellsString quote cs us) :
    quoted quote (us ++ quote :: ws) = some ⟨cs, us ++ [quote], ws⟩ := by
  have hback : quote ≠ '\\' := by rcases hq with rfl | rfl <;> decide
  have hname : ¬ isNameChar quote := by rcases hq with rfl | rfl <;> decide
  induction h with
  | nil => simp [quoted.eq_def]
  | @cons c s cs us hs _ ih =>
    obtain ⟨rfl, hc⟩ | ⟨x, xs, rfl, hline, hescape⟩ := hs.eq_or_exists_escape
    · have hquote : c ≠ quote := by
        rintro rfl
        exact hname hc
      have hline : c ≠ '\n' := by
        rintro rfl
        contradiction
      rw [List.singleton_append, List.cons_append,
        quoted_plain hquote (ne_backslash_of_isNameChar hc) hline, ih]
      rfl
    · rw [List.append_assoc, List.cons_append, List.cons_append, quoted_escape hback hline, hescape]
      simp [ih, push]
  | plain hquote he hl _ ih =>
    rw [List.cons_append, quoted_plain hquote he hl, ih]
    rfl
  | join _ ih =>
    rw [List.cons_append, List.cons_append, quoted_join hback, ih]
    rfl

end

end Scan

open Scan

theorem tokenize_of_token {cs : List Char} {kind : Token.Kind} {text : String}
    (hk : kind ≠ .endOfInput) (h : token cs = .ok ⟨(kind, text), cs, []⟩) :
    tokenize (String.ofList cs) =
      .ok [⟨kind, text, 0⟩, ⟨.endOfInput, "", byteSize cs⟩] := by
  have hl : Lexes 0 (String.ofList cs).toList [⟨kind, text, 0⟩] [] := by
    rw [String.toList_ofList]
    exact .token hk (by rw [List.append_nil, h])
  have ht := hl.tokenize_eq
  rwa [String.toList_ofList] at ht

/-- Whatever the spelling, what is spelled is the text of the token. A name on its own has to start
with an escape or with a character that names start with. -/
theorem tokenize_of_spells :
    (∀ (c : Char) (s cs us : List Char), Spelling c s → SpellsName cs us →
      tokenize (String.ofList ('#' :: (s ++ us))) =
        .ok [⟨.hash, String.ofList (c :: cs), 0⟩, ⟨.endOfInput, "", byteSize ('#' :: (s ++ us))⟩] ∧
      (s ≠ [c] ∨ isNameStart c → tokenize (String.ofList (s ++ us)) =
        .ok [⟨.ident, String.ofList (c :: cs), 0⟩, ⟨.endOfInput, "", byteSize (s ++ us)⟩])) ∧
    ∀ (quote : Char) (cs us : List Char), quote = '"' ∨ quote = '\'' → SpellsString quote cs us →
      tokenize (String.ofList (quote :: (us ++ [quote]))) =
        .ok [⟨.string, String.ofList cs, 0⟩,
          ⟨.endOfInput, "", byteSize (quote :: (us ++ [quote]))⟩] := by
  refine ⟨fun c s cs us hs hus => ?_, fun quote cs us hq h => ?_⟩
  · have hend : ∀ x ∈ ([] : List Char).head?, ¬ isNameChar x := nofun
    have hname := name_of_spellsName (.cons hs hus) hend nofun
    rw [List.append_nil] at hname
    refine ⟨tokenize_of_token (by decide) ?_, fun hc => tokenize_of_token (by decide) ?_⟩
    · rw [token_hash (hs.opensName us), hname]
    · obtain ⟨hnumber, hstart⟩ := hs.startsName hc us
      rw [token_name hnumber hstart, hname]
  · have hquoted : quoted quote (us ++ [quote]) = some ⟨cs, us ++ [quote], []⟩ :=
      quoted_of_spellsString hq h
    exact tokenize_of_token (by decide) (token_string hq hquoted)

theorem tokenize_of_spells_mixed :
    Spelling 'é' ['\\', '0', '0', '0', '0', 'E', '9', '\t'] ∧
      SpellsName ['g', '1', '.'] ['\\', 'g', '1', '\\', '.'] ∧
      SpellsString '\'' ['é', '"'] ['\\', '\n', '\\', 'e', '9', '\n', '"'] ∧
      tokenize "#\\0000E9\t\\g1\\." = .ok [⟨.hash, "ég1.", 0⟩, ⟨.endOfInput, "", 14⟩] ∧
      tokenize "\\0000E9\t\\g1\\." = .ok [⟨.ident, "ég1.", 0⟩, ⟨.endOfInput, "", 13⟩] ∧
      tokenize "'\\\n\\e9\n\"'" = .ok [⟨.string, "é\"", 0⟩, ⟨.endOfInput, "", 9⟩] := by
  have hs : Spelling 'é' ('\\' :: (['0', '0', '0', '0', 'E', '9'] ++ ['\t'])) :=
    .codePoint (by decide) ⟨4, by decide⟩ (by decide) rfl
  have hname : SpellsName ['g', '1', '.'] (['\\', 'g'] ++ (['1'] ++ (['\\', '.'] ++ []))) :=
    .cons (.escaped (by decide) (by decide)) (.cons (.itself (by decide))
      (.cons (.escaped (by decide) (by decide)) .nil))
  have hline : Spelling 'é' ('\\' :: (['e', '9'] ++ ['\n'])) :=
    .codePoint (by decide) ⟨0, by decide⟩ (by decide) rfl
  have hstring : SpellsString '\'' ['é', '"']
      ('\\' :: '\n' :: ('\\' :: (['e', '9'] ++ ['\n']) ++ ['"'])) :=
    .join (.cons hline (.plain (by decide) (by decide) (by decide) .nil))
  obtain ⟨hhash, hident⟩ := tokenize_of_spells.1 _ _ _ _ hs hname
  have hquoted := tokenize_of_spells.2 _ _ _ (.inr rfl) hstring
  refine ⟨hs, hname, hstring, ?_, ?_, ?_⟩
  · simpa [byteSize, Char.utf8Size] using hhash
  · simpa [byteSize, Char.utf8Size] using hident (.inl (by decide))
  · simpa [byteSize, Char.utf8Size] using hquoted

end CssSelector
