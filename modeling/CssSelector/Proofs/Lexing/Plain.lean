import CssSelector.Parse.Formula
import CssSelector.Proofs.Formula.Blank
import CssSelector.Proofs.Lexing
import CssSelector.Proofs.Reads.Formula

set_option autoImplicit false

namespace CssSelector

open Text

namespace Scan

def isPlain (c : Char) : Bool := isSpace c || isNameChar c || c = '+'

theorem isBlank_of_isSpace {c : Char} (h : isSpace c) : isBlank c := by
  simp only [isSpace, Bool.or_eq_true, decide_eq_true_eq] at h
  rcases h with (((rfl | rfl) | rfl) | rfl) | rfl <;> decide

structure EndsWord (us : List Char) : Prop where
  name : ∀ c ∈ us.head?, ¬isNameChar c
  backslash : '\\' ∉ us.head?
  point : '.' ∉ us.head?

section
variable {c : Char} {cs us : List Char}

theorem ne_backslash_of_isPlain (h : isPlain c) : c ≠ '\\' := by
  rintro rfl
  contradiction

/-- A word of plain text: a numeral, a name or a sign, and all of it is taken. -/
theorem exists_token_of_isPlain (hu : EndsWord us) (hcs : ∀ x ∈ c :: cs, isPlain x)
    (hc : ¬isSpace c) : ∃ kind xs rest, c :: cs = xs ++ rest ∧ xs ≠ [] ∧
      kind ∈ [Token.Kind.number, .ident, .delim, .combinator] ∧
      token (c :: cs ++ us) = .ok ⟨(kind, String.ofList xs), xs, rest ++ us⟩ := by
  have hdigit : ∀ c ∈ us.head?, ¬c.isDigit := fun c hc h => hu.name c hc (isNameChar_of_isDigit h)
  have hne : c :: cs ≠ [] := List.cons_ne_nil c cs
  by_cases hnum : startsNumber (c :: cs ++ us)
  · have hn := numeral_append hdigit hu.point hne
    obtain ⟨rest, hrest⟩ := numeral_le (c :: cs)
    refine ⟨.number, numeral (c :: cs), rest, hrest.symm, ?_, by simp, ?_⟩
    · exact numeral_ne_nil ((startsNumber_append hdigit hu.point hne).symm.trans hnum)
    · have hdrop := congrArg (List.drop (numeral (c :: cs)).length) hrest
      rw [List.drop_left] at hdrop
      rw [token_number hnum, hn, List.drop_append_of_le_length (numeral_le _).length_le, ← hdrop]
  have hsign {kind : Token.Kind} (hkind : kind ∈ [Token.Kind.number, .ident, .delim, .combinator])
      (h : token (c :: cs ++ us) = .ok ⟨(kind, String.ofList [c]), [c], cs ++ us⟩) :
      ∃ kind xs rest, c :: cs = xs ++ rest ∧ xs ≠ [] ∧
        kind ∈ [Token.Kind.number, .ident, .delim, .combinator] ∧
        token (c :: cs ++ us) = .ok ⟨(kind, String.ofList xs), xs, rest ++ us⟩ :=
    ⟨kind, [c], cs, rfl, by simp, hkind, h⟩
  by_cases hplus : c = '+'
  · subst hplus
    exact hsign (by simp) (token_mark (by decide) hnum Bool.false_ne_true rfl)
  have hname : isNameChar c := by simpa [isPlain, hc, hplus] using hcs c List.mem_cons_self
  by_cases hstart : startsName (c :: cs ++ us)
  · have hx : ∀ d ∈ (c :: cs).takeWhile isNameChar, isNameChar d :=
      List.all_eq_true.1 List.all_takeWhile
    have hsplit := List.takeWhile_append_dropWhile (p := isNameChar) (l := c :: cs)
    have hn : ∀ d ∈ ((c :: cs).dropWhile isNameChar ++ us).head?, ¬isNameChar d ∧ d ≠ '\\' := by
      intro d hd
      cases hr : (c :: cs).dropWhile isNameChar with
      | nil =>
        rw [hr, List.nil_append] at hd
        exact ⟨hu.name d hd, fun h => hu.backslash (h ▸ hd)⟩
      | cons e es =>
        rw [hr] at hd
        cases hd
        have hno := List.head?_dropWhile_not isNameChar (c :: cs)
        rw [hr] at hno
        refine ⟨by simpa using hno, ne_backslash_of_isPlain (hcs _ ?_)⟩
        exact (List.dropWhile_suffix isNameChar).subset (hr ▸ List.mem_cons_self)
    have happ : name (c :: cs ++ us) =
        ⟨(c :: cs).takeWhile isNameChar, (c :: cs).takeWhile isNameChar,
          (c :: cs).dropWhile isNameChar ++ us⟩ := by
      conv => lhs; rw [← hsplit, List.append_assoc]
      exact name_of_isNameChar hx (fun d hd => (hn d hd).1) fun hd => (hn _ hd).2 rfl
    refine ⟨.ident, _, _, hsplit.symm, by simp [hname], by simp, ?_⟩
    rw [token_name hnum hstart, happ]
  · have hminus : c = '-' := by
      by_contra hne
      rw [isNameChar, Bool.or_eq_true, Bool.or_eq_true] at hname
      rcases hname with (hs | hd) | hm
      · exact hstart (startsName_of_isNameStart hs _)
      · exact hnum (startsNumber_of_isDigit hd _)
      · exact hne (of_decide_eq_true hm)
    subst hminus
    exact hsign (by simp) (token_mark (by decide) hnum hstart rfl)

end

end Scan

namespace Lexes
open Scan Parse

theorem exists_of_isPlain {us : List Char} (hu : EndsWord us) (n : Nat) {cs : List Char}
    (hcs : ∀ c ∈ cs, isPlain c)
    (hlast : (∀ c ∈ cs.getLast?, ¬isSpace c) ∨ ∀ u ∈ us.head?, ¬isSpace u) :
    ∃ ts text, Lexes n cs ts us ∧ formulaTexts? ts = some text ∧ Alike cs text := by
  induction hlen : cs.length using Nat.strongRecOn generalizing n cs with
  | _ len ih =>
    cases cs with
    | nil => exact ⟨[], [], .nil n us, rfl, .nil⟩
    | cons c cs =>
      have hrest {xs rest : List Char} (hsplit : c :: cs = xs ++ rest) (hne : xs ≠ []) :
          rest.length < len ∧ (∀ x ∈ rest, isPlain x) ∧
            ((∀ x ∈ rest.getLast?, ¬isSpace x) ∨ ∀ u ∈ us.head?, ¬isSpace u) := by
        rw [hsplit] at hcs hlast hlen
        have hpos := List.length_pos_iff.2 hne
        rw [List.length_append] at hlen
        refine ⟨by omega, fun x hx => hcs x (List.mem_append_right _ hx),
          hlast.imp_left fun hlast x hx => hlast x ?_⟩
        rw [List.getLast?_append, Option.mem_def.1 hx]
        rfl
      by_cases hc : isSpace c
      · have hsp : ∀ x ∈ c :: cs.takeWhile isSpace, isSpace x :=
          List.forall_mem_cons.2 ⟨hc, List.all_eq_true.1 List.all_takeWhile⟩
        have hsplit : c :: cs = (c :: cs.takeWhile isSpace) ++ cs.dropWhile isSpace := by
          rw [List.cons_append, List.takeWhile_append_dropWhile]
        obtain ⟨hlt, hplain, hend⟩ := hrest hsplit (by simp)
        obtain ⟨ts, text, hlex, htext, halike⟩ :=
          ih _ hlt (n + byteSize (c :: cs.takeWhile isSpace)) hplain hend rfl
        have hhead : ∀ x ∈ (cs.dropWhile isSpace ++ us).head?, ¬isSpace x := by
          cases hr : cs.dropWhile isSpace with
          | nil =>
            -- all is white space, the last character too
            rw [hr, List.append_nil] at hsplit
            have hl := List.getLast?_eq_some_getLast (List.cons_ne_nil c cs)
            exact hlast.resolve_left fun hlast =>
              hlast _ (Option.mem_def.2 hl) (hsp _ (hsplit ▸ List.getLast_mem _))
          | cons d ds =>
            rintro x ⟨⟩
            have hno := List.head?_dropWhile_not isSpace cs
            rw [hr] at hno
            simpa using hno
        have hspace := Lexes.token (n := n) (by decide) (token_spaces (by simp) hsp hhead)
        rw [hsplit]
        refine ⟨_, [' '] ++ text, hspace.append hlex, ?_, ?_⟩
        · simp [formulaTexts?, formulaText?, htext]
        · exact @Alike.blanks _ [' '] _ _ (by simp) (by simp)
            (fun x hx => isBlank_of_isSpace (hsp x hx)) (List.forall_mem_singleton.2 rfl) halike
      · obtain ⟨kind, xs, rest, hsplit, hne, hkind, htoken⟩ := exists_token_of_isPlain hu hcs hc
        obtain ⟨hlt, hplain, hend⟩ := hrest hsplit hne
        obtain ⟨ts, text, hlex, htext, halike⟩ := ih _ hlt (n + byteSize xs) hplain hend rfl
        rw [hsplit, List.append_assoc] at htoken
        have hsay : formulaText? ⟨kind, String.ofList xs, n⟩ = some xs := by
          simp only [List.mem_cons, List.not_mem_nil, or_false] at hkind
          rcases hkind with rfl | rfl | rfl | rfl <;> simp [formulaText?]
        have hend : kind ≠ .endOfInput := by
          rintro rfl
          simp at hkind
        rw [hsplit]
        refine ⟨_, xs ++ text, (Lexes.token hend htoken).append hlex, ?_,
          (Alike.refl xs).append halike⟩
        simp [formulaTexts?, hsay, htext]

end Lexes

/-! Formulas in plain text. -/

section
variable {cs us : List Char} {f : Formula}

theorem Scan.isPlain_of_isBlank {c : Char} (h : isBlank c) (hc : c ≠ '\x0b') : isPlain c := by
  have hlow (k : Nat) (hk : c.toNat = k) : c = Char.ofNat k := hk ▸ (Char.ofNat_toNat c).symm
  by_cases hhigh : 0x80 ≤ c.toNat
  · simp [isPlain, isNameChar, isNameStart, hhigh]
  · have hcases : c.toNat = 9 ∨ c.toNat = 10 ∨ c.toNat = 11 ∨ c.toNat = 12 ∨ c.toNat = 13 ∨
        c.toNat = 32 := by
      simp [isBlank, blankRanges] at h
      omega
    rcases hcases with h | h | h | h | h | h <;> rw [hlow _ h] at hc ⊢ <;>
      first | rfl | contradiction

theorem Scan.isPlain_of_isLetter {c : Char} (h : Formula.isLetter c.toLower) : isPlain c := by
  by_cases hu : c.isUpper
  · simp [isPlain, isNameChar, isNameStart, Char.isAlpha, hu]
  · have hc : c.toLower = c := by
      unfold Char.toLower
      exact dif_neg (by simpa [Char.isUpper] using hu)
    rw [hc] at h
    rcases Bool.or_eq_true_iff.1 h with hd | hm
    · simp [isPlain, isNameChar_of_isDigit hd]
    · have hall : ∀ x ∈ ['+', '-', 'n', 'o', 'd', 'e', 'v'], isPlain x :=
        List.all_iff_forall_prop.1 (by decide)
      exact hall c (List.contains_iff_mem.1 hm)

theorem Formula.isPlain_of_read? (h : read? cs = some f) (hv : '\x0b' ∉ cs) :
    ∀ c ∈ cs, Scan.isPlain c := by
  intro c hc
  by_cases hb : isBlank c
  · exact Scan.isPlain_of_isBlank hb fun he => hv (he ▸ hc)
  · exact Scan.isPlain_of_isLetter (isLetter_of_read? h c hc hb)

theorem Scan.endsWord_of_isSpace (h : ∀ c ∈ us.head?, isSpace c) : EndsWord us := by
  have hall : ∀ c, isSpace c → ¬isNameChar c ∧ c ≠ '\\' ∧ c ≠ '.' := by
    intro c hc
    simp only [isSpace, Bool.or_eq_true, decide_eq_true_eq] at hc
    rcases hc with (((rfl | rfl) | rfl) | rfl) | rfl <;> decide
  exact ⟨fun c hc => (hall c (h c hc)).1, fun hc => (hall _ (h _ hc)).2.1 rfl,
    fun hc => (hall _ (h _ hc)).2.2 rfl⟩

theorem Scan.endsWord_paren (us : List Char) : EndsWord (')' :: us) := by
  constructor
  · rintro c ⟨⟩
    decide
  · simp
  · simp

namespace Lexes
open Scan Parse

theorem exists_of_read? (h : Formula.read? cs = some f) (hv : '\x0b' ∉ cs)
    (hlast : (∀ c ∈ cs.getLast?, ¬isSpace c) ∨ ∀ u ∈ us.head?, ¬isSpace u) (hu : EndsWord us)
    (n : Nat) :
    ∃ ts, Lexes n cs ts us ∧ ReadsFormula ts f := by
  obtain ⟨ts, text, hlex, htext, halike⟩ :=
    exists_of_isPlain hu n (Formula.isPlain_of_read? h hv) hlast
  refine ⟨ts, hlex, text, htext, ?_⟩
  rw [Formula.read?_trim, ← Formula.read?_eq_of_alike halike, h]

theorem exists_of_read?_space (h : Formula.read? cs = some f) (hv : '\x0b' ∉ cs)
    (hu : ∀ c ∈ us.head?, ¬isSpace c) (n : Nat) :
    ∃ ts w, Lexes n (cs ++ [' ']) (ts ++ [w]) us ∧ w.kind = .whitespace ∧
      ReadsFormula (ts ++ [w]) f := by
  -- the white space in the end is one token with the space behind it
  obtain ⟨xs, sp, rfl, hsp, hlast⟩ : ∃ xs sp, cs = xs ++ sp ∧ (∀ c ∈ sp, isSpace c) ∧
      ∀ c ∈ xs.getLast?, ¬isSpace c := by
    refine ⟨(cs.reverse.dropWhile isSpace).reverse, (cs.reverse.takeWhile isSpace).reverse, ?_, ?_,
      ?_⟩
    · rw [← List.reverse_append, List.takeWhile_append_dropWhile, List.reverse_reverse]
    · intro c hc
      exact List.all_eq_true.1 List.all_takeWhile c (List.mem_reverse.1 hc)
    · intro c hc
      rw [List.getLast?_reverse] at hc
      have hno := List.head?_dropWhile_not isSpace cs.reverse
      rw [Option.mem_def.1 hc] at hno
      simpa using hno
  have hspaces : ∀ c ∈ sp ++ [' '], isSpace c := by
    intro c hc
    rcases List.mem_append.1 hc with hc | hc
    · exact hsp c hc
    · rw [List.mem_singleton.1 hc]
      rfl
  have hblank : ∀ c ∈ sp, isBlank c := fun c hc => isBlank_of_isSpace (hsp c hc)
  have hx : Formula.read? xs = some f := by
    rw [← h, ← Formula.read?_trim (xs ++ sp), trim_append_blanks xs hblank, Formula.read?_trim]
  have hends : EndsWord ((sp ++ [' ']) ++ us) := endsWord_of_isSpace fun c hc => by
    refine hspaces c ?_
    rw [List.head?_append] at hc
    cases sp with
    | nil => simpa using hc.symm
    | cons d sp =>
      cases hc
      exact List.mem_cons_self
  obtain ⟨ts, text, hlex, htext, halike⟩ :=
    exists_of_isPlain hends n (Formula.isPlain_of_read? hx fun hm => hv (by simp [hm]))
      (.inl hlast)
  have hspace := Lexes.token (n := n + byteSize xs) (by decide) (token_spaces (by simp) hspaces hu)
  refine ⟨ts, ⟨.whitespace, " ", n + byteSize xs⟩, ?_, rfl, text ++ [' '], ?_, ?_⟩
  · rw [List.append_assoc]
    exact hlex.append hspace
  · rw [formulaTexts?_append htext]
    rfl
  · rw [trim_append_blanks text (List.forall_mem_singleton.2 rfl), Formula.read?_trim,
      ← Formula.read?_eq_of_alike halike, hx]

end Lexes
end

end CssSelector
