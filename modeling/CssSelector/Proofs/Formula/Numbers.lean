import CssSelector.Proofs.Formula.Written
import CssSelector.Proofs.Reads.Single
import CssSelector.Proofs.Reads.Sound
import CssSelector.Proofs.Scan.Trim
import CssSelector.Proofs.Tiling

/-!
Numbers side by side in a formula. They are read as one integer, since a formula is put together from
what its tokens say, and they are comments apart in the source: digits with nothing between them are
one number for the lexer (`Parse.comments_between_numbers`).
-/

set_option autoImplicit false

namespace CssSelector

open Text

namespace Scan
variable {cs : List Char} {s : Scan (Token.Kind × String)}

/-- The numeral `ns` in front of `cs` ends with a digit, and no digit stands behind it. -/
def EndsNumeral (ns cs : List Char) : Prop :=
  (∃ d ∈ ns.getLast?, d.isDigit) ∧ ∀ rest, cs = ns ++ rest → ∀ c ∈ rest.head?, ¬c.isDigit

theorem EndsNumeral.cons {ns : List Char} (h : EndsNumeral ns cs) (c : Char) :
    EndsNumeral (c :: ns) (c :: cs) := by
  obtain ⟨⟨d, hd, hdigit⟩, hrest⟩ := h
  refine ⟨⟨d, ?_, hdigit⟩, fun rest hcs => hrest rest (List.cons.inj hcs).2⟩
  rw [List.getLast?_cons, Option.mem_def.1 hd]
  rfl

theorem endsNumeral_unsignedNumeral (h : startsDigits cs) : EndsNumeral (unsignedNumeral cs) cs := by
  have hstart := startsDigits_unsignedNumeral h
  obtain ⟨ws, ds, rfl, hw, ⟨d, es, rfl, hd⟩ | ⟨hhead, hpoint⟩⟩ := exists_unsignedNumeral cs
  · rw [unsignedNumeral_point hw hd]
    constructor
    · have hall : ∀ x ∈ d :: es.takeWhile Char.isDigit, x.isDigit :=
        List.forall_mem_cons.2 ⟨hd, fun x hx => List.mem_takeWhile_imp hx⟩
      refine ⟨_, ?_, hall _ (List.getLast_mem (List.cons_ne_nil _ _))⟩
      rw [List.getLast?_append_of_ne_nil _ (by simp), List.getLast?_cons_cons,
        List.getLast?_eq_some_getLast]
      rfl
    · intro rest hcs
      have hes : es = es.takeWhile Char.isDigit ++ rest := by simpa using hcs
      have hrest : es.takeWhile Char.isDigit ++ es.dropWhile Char.isDigit =
          es.takeWhile Char.isDigit ++ rest := by
        rw [List.takeWhile_append_dropWhile, ← hes]
      rw [← List.append_cancel_left hrest]
      exact head?_of_prefix_dropWhile (List.prefix_refl _)
  · rw [unsignedNumeral_whole hw hhead hpoint] at hstart ⊢
    have hne : ws ≠ [] := by
      rintro rfl
      contradiction
    refine ⟨⟨_, List.getLast?_eq_some_getLast hne, hw _ (List.getLast_mem hne)⟩, ?_⟩
    intro rest hcs
    rwa [← List.append_cancel_left hcs]

theorem endsNumeral_numeral (h : startsNumber cs) : EndsNumeral (numeral cs) cs := by
  by_cases hplus : '+' ∈ cs.head?
  · obtain ⟨cs, rfl⟩ := List.head?_eq_some_iff.1 hplus
    exact (endsNumeral_unsignedNumeral h).cons '+'
  by_cases hminus : '-' ∈ cs.head?
  · obtain ⟨cs, rfl⟩ := List.head?_eq_some_iff.1 hminus
    exact (endsNumeral_unsignedNumeral h).cons '-'
  rw [startsNumber_of_head hplus hminus] at h
  rw [numeral_of_head hplus hminus]
  exact endsNumeral_unsignedNumeral h

theorem numeral_of_token (h : token cs = .ok s) (hk : s.value.1 = .number) :
    startsNumber cs ∧ s.value.2.toList = numeral cs ∧ s.spelling = numeral cs := by
  cases token_eq_ok.1 h with
  | number hnum => exact ⟨hnum, String.toList_ofList, rfl⟩
  | mark _ _ _ hm =>
    have hall : ∀ m ∈ marks, m.2 ≠ .number := by decide
    exact absurd hk (hall _ (List.mem_of_find?_eq_some hm))
  | _ => contradiction

end Scan

namespace Formula

/-- The second character is no sign if the first one is a digit. -/
def SignApart (x y : Char) : Prop := x.isDigit → ∀ s, ¬Sign y s

section
variable {cs ds : List Char} {f : Formula} {z : Int}

theorem isChain_of_not_sign (h : ∀ c ∈ cs, ∀ s, ¬Sign c s) : cs.IsChain SignApart := by
  refine List.isChain_iff_forall_rel_of_append_cons_cons.2 fun x y us vs hcs _ => h y ?_
  simp [hcs]

theorem isChain_append_of_not_isDigit (h : ∀ c ∈ cs, ¬c.isDigit) (hd : ds.IsChain SignApart) :
    (cs ++ ds).IsChain SignApart := by
  induction cs with
  | nil => exact hd
  | cons c cs ih =>
    obtain ⟨hc, hcs⟩ := List.forall_mem_cons.1 h
    exact List.isChain_cons.2 ⟨fun _ _ hdigit => absurd hdigit hc, ih hcs⟩

theorem Digits.isChain {n : Nat} (h : Digits ds n) : ds.IsChain SignApart :=
  isChain_of_not_sign fun d hd _ hs => hs.ne.1 (h.digits d hd)

theorem Integer.isChain (h : Integer cs z) : cs.IsChain SignApart := by
  cases h with
  | unsigned hd => exact hd.isChain
  | signed hs hd =>
    exact isChain_append_of_not_isDigit (List.forall_mem_singleton.2 hs.ne.1) hd.isChain

theorem Coefficient.isChain (h : Coefficient cs z) : cs.IsChain SignApart := by
  cases h with
  | one => exact List.isChain_nil
  | sign => exact List.isChain_singleton _
  | integer hi => exact hi.isChain

theorem not_isDigit_of_isBlank {c : Char} (h : isBlank c) : ¬c.isDigit :=
  fun hd => not_isBlank_of_isDigit hd h

theorem Constant.isChain (h : Constant cs z) : cs.IsChain SignApart := by
  cases h with
  | zero => exact List.isChain_nil
  | @signed c _ bs ds es _ hbs hs hds hes =>
    have hfront : ∀ x ∈ bs ++ c :: ds, ¬x.isDigit := by
      refine List.forall_mem_append.2 ⟨fun b hb => not_isDigit_of_isBlank (hbs b hb), ?_⟩
      exact List.forall_mem_cons.2 ⟨hs.ne.1, fun d hd => not_isDigit_of_isBlank (hds d hd)⟩
    have hall := isChain_append_of_not_isDigit hfront hes.isChain
    rwa [List.append_assoc, List.cons_append] at hall

theorem Denotes.isChain (h : Denotes cs f) : cs.IsChain SignApart := by
  have hn : ∀ s, ¬Sign 'n' s := nofun
  cases h with
  | odd | even =>
    refine isChain_of_not_sign fun c hc s hs => ?_
    cases hs <;> simp at hc
  | integer hi => exact hi.isChain
  | @linear xs ys _ _ ha hb =>
    refine List.isChain_append.2 ⟨ha.isChain, ?_, ?_⟩
    · exact isChain_append_of_not_isDigit (List.forall_mem_singleton.2 (by decide)) hb.isChain
    · rintro x - _ ⟨⟩ -
      exact hn

theorem SignApart.of_toLower {x y : Char} (h : SignApart x.toLower y.toLower) : SignApart x y := by
  intro hx s hs
  rw [SignApart, toLower_of_isDigit hx] at h
  cases hs with
  | plus => exact h hx 1 .plus
  | minus => exact h hx (-1) .minus

theorem isChain_of_read? (h : read? cs = some f) : cs.IsChain SignApart := by
  obtain ⟨bs, ds, hcs, hbs, hds⟩ := exists_trim cs
  have htrim : (trim cs).IsChain SignApart :=
    List.isChain_of_isChain_map _ (fun _ _ => .of_toLower) (denotes_of_read? h).isChain
  rw [hcs]
  refine isChain_append_of_not_isDigit (fun b hb => not_isDigit_of_isBlank (hbs b hb)) ?_
  have hsign {d : Char} (hd : d ∈ ds) s : ¬Sign d s := fun hs => hs.ne.2.1 (hds d hd)
  exact List.isChain_append.2 ⟨htrim, isChain_of_not_sign fun d hd => hsign hd,
    fun _ _ d hd _ => hsign (List.mem_of_head? hd)⟩

end
end Formula

namespace Lexer

open Scan

/-- A number token, and another one behind it. Comments stand between them if the second one starts
with a digit, which would be part of the first one otherwise. -/
theorem exists_comments_of_run {n : Nat} {cs : List Char} {x y : Token} {after : List Token}
    (h : run ⟨n, cs, false⟩ = (x :: y :: after).map .ok) (hn : x.position = n)
    (hx : x.kind = .number) (hy : y.kind = .number) :
    (∃ d ∈ x.text.toList.getLast?, d.isDigit) ∧
      (∃ c ∈ y.text.toList.head?, c.isDigit ∨ c ∈ ['+', '-', '.']) ∧
      ∃ ds rest, cs = x.text.toList ++ ds ++ rest ∧ comments ds = ⟨(), ds, []⟩ ∧
        y.position = n + byteSize (x.text.toList ++ ds) ∧
        ((∀ c ∈ y.text.toList.head?, c.isDigit) → ds ≠ []) := by
  obtain ⟨l, hstep, hrun⟩ := exists_of_run_cons (by simp) h
  obtain ⟨s, hs, rfl, rfl⟩ := exists_of_step hstep
  obtain ⟨l, hstep, -⟩ := exists_of_run_cons (kind_ne_of_run_cons hstep hrun (by simp)).1 hrun
  -- the first number stands at the very front, with no comment before it
  have hfront : (comments cs).spelling = [] := by
    by_contra hne
    have hpos := byteSize_pos hne
    dsimp only at hn
    omega
  have hcs := spelling_comments cs
  rw [hfront, List.nil_append] at hcs
  rw [hcs] at hs
  obtain ⟨hstart, htext, hspelling⟩ := numeral_of_token hs hx
  have hnum : decide (s.value.1 = .endOfInput) = false := by simp [show s.value.1 = _ from hx]
  rw [hnum] at hstep
  obtain ⟨r, hr, rfl, -⟩ := exists_of_step hstep
  obtain ⟨hstart', htext', -⟩ := numeral_of_token hr hy
  obtain ⟨c, ns, hns⟩ := List.exists_cons_of_ne_nil (numeral_ne_nil hstart')
  have hc : c ∈ (numeral (comments s.rest).rest).head? := by rw [hns]; rfl
  have hrest := spelling_comments s.rest
  dsimp only at hn ⊢
  rw [htext, htext']
  refine ⟨(endsNumeral_numeral hstart).1, ⟨c, hc, mem_numeral (List.mem_of_head? hc)⟩,
    (comments s.rest).spelling, (comments s.rest).rest, ?_, comments_comments s.rest, ?_, ?_⟩
  · rw [← hspelling, List.append_assoc, hrest, spelling_token hs]
  · rw [← hspelling, hn, byteSize_append, Nat.add_assoc]
  · -- without comments the second number goes on where the first one ends
    intro hdigit hnil
    rw [hnil, List.nil_append] at hrest
    have hbehind := (endsNumeral_numeral hstart).2 s.rest (by rw [← hspelling, spelling_token hs])
    have hle := numeral_le (comments s.rest).rest
    rw [hrest] at hle hc hdigit
    exact hbehind c (mem_head?_of_le hle hc) (hdigit c hc)

end Lexer

def Argument.formula? : Argument → Option Formula
  | .formula f => some f
  | .formulaOfSelector f _ => some f
  | _ => none

namespace Parse

open CssSelector.Parse.Parser

section
variable {c : Context} {category : Category} {name : String} {us before after : List Token}
  {ms : List Mention} {a : Argument} {f : Formula} {x y : Token}

theorem Reads.exists_formula (h : Reads c us (.argument category name (some a)) ms)
    (hf : a.formula? = some f) :
    ∃ (o e : Token) (xs ys : List Token), us = o :: (xs ++ e :: ys) ∧ o.kind = .leftParen ∧
      (e.kind = .rightParen ∨ e.kind = .ident ∧ sameLetters e.text "of") ∧ ReadsFormula xs f := by
  cases h with
  | loose => contradiction
  | @argument _ _ _ _ o t xs _ _ _ _ ho hbody ht =>
    cases hbody with
    | formula hx | formulaAlone hx =>
      cases hf
      exact ⟨o, t, xs, [], rfl, ho, .inl ht, hx⟩
    | @formulaOf xs ys w e _ _ _ hx _ he hof =>
      cases hf
      exact ⟨o, e, xs ++ [w], ys ++ [t], by simp, ho, .inr ⟨he, hof⟩, hx⟩
    | _ => contradiction

theorem ReadsFormula.isDigit (h : ReadsFormula (before ++ x :: y :: after) f)
    (hx : x.kind = .number) (hy : y.kind = .number) {d e : Char} (hd : d ∈ x.text.toList.getLast?)
    (hdigit : d.isDigit) (he : e ∈ y.text.toList.head?)
    (hstart : e.isDigit ∨ e ∈ ['+', '-', '.']) : e.isDigit := by
  obtain ⟨text, htext, hf⟩ := h
  rw [Formula.read?_trim] at hf
  obtain ⟨pre, _, -, htwo, rfl⟩ := exists_of_formulaTexts?_append htext
  obtain ⟨xs, _, hxs, hone, rfl⟩ := exists_of_formulaTexts?_cons htwo
  obtain ⟨ys, post, hys, -, rfl⟩ := exists_of_formulaTexts?_cons hone
  obtain rfl : x.text.toList = xs := by simpa [formulaText?, hx] using hxs
  obtain rfl : y.text.toList = ys := by simpa [formulaText?, hy] using hys
  obtain ⟨ds, hds⟩ := List.getLast?_eq_some_iff.1 hd
  obtain ⟨es, hes⟩ := List.head?_eq_some_iff.1 he
  rw [hds, hes] at hf
  have hsplit : pre ++ (ds ++ [d] ++ (e :: es ++ post)) = pre ++ ds ++ d :: e :: (es ++ post) := by
    simp
  have hapart := List.isChain_iff_forall_rel_of_append_cons_cons.1 (Formula.isChain_of_read? hf)
    hsplit
  refine hstart.resolve_right fun hmem => ?_
  simp only [List.mem_cons, List.not_mem_nil, or_false] at hmem
  rcases hmem with rfl | rfl | rfl
  · exact hapart hdigit 1 .plus
  · exact hapart hdigit (-1) .minus
  · exact absurd (Formula.isLetter_of_read? hf '.' (by simp) (by decide)) (by decide)

instance : DecidablePred StandsInFormula :=
  fun t => inferInstanceAs (Decidable ((formulaText? t).isSome ∧ ¬(t.kind = .ident ∧ _)))

theorem ReadsFormula.takeWhile_append {xs : List Token} {e : Token} (h : ReadsFormula xs f)
    (he : e.kind = .rightParen ∨ e.kind = .ident ∧ sameLetters e.text "of") (ys : List Token) :
    (xs ++ e :: ys).takeWhile (fun t => StandsInFormula t) = xs := by
  have hend : ¬StandsInFormula e := by
    rintro ⟨htext, hof⟩
    rcases he with he | he
    · simp [formulaText?, he] at htext
    · exact hof he
  rw [List.takeWhile_append_of_pos fun t ht => decide_eq_true (h.stands ht),
    List.takeWhile_cons_of_neg (by simpa using hend), List.append_nil]

/-- Numbers side by side in the formula of an accepted argument are comments apart. -/
theorem comments_between_numbers {d : Dialect} {n : Nat} {text : String} {t : Token}
    {ts vs : List Token} {ws : List Warning} (ht : tokenize text = .ok ts)
    (hus : us <:+ ts.dropLast)
    (h : (pseudoArgument (selectorTo n) category t).run ⟨d, text.toList⟩ us =
      ⟨.ok (some a), ws, vs⟩) (hf : a.formula? = some f) :
    ∃ (o e : Token) (xs ys : List Token), us = o :: (xs ++ e :: ys) ∧ o.kind = .leftParen ∧
      (e.kind = .rightParen ∨ e.kind = .ident ∧ sameLetters e.text "of") ∧ ReadsFormula xs f ∧
      ∀ (x y : Token) (before after : List Token), xs = before ++ x :: y :: after →
        x.kind = .number → y.kind = .number →
        ∃ cs, cs ≠ [] ∧ Scan.comments cs = ⟨(), cs, []⟩ ∧
          slice? text.toList x.position y.position = some (x.text.toList ++ cs) := by
  obtain ⟨us, ms, rfl, hread, -⟩ := pseudoArgument_sound (selectorTo_sound n) h
  obtain ⟨o, e, xs, ys, rfl, ho, he, hx⟩ := hread.exists_formula hf
  refine ⟨o, e, xs, ys ++ vs, by simp, ho, he, hx, ?_⟩
  rintro x y before after rfl hxk hyk
  obtain ⟨front, last, htokens⟩ := exists_before_of_tokenize ht hus
  have hsplit : front ++ (o :: (before ++ x :: y :: after ++ e :: ys) ++ vs ++ [last]) =
      front ++ o :: before ++ x :: y :: (after ++ e :: ys ++ vs ++ [last]) := by simp
  rw [hsplit] at htokens
  obtain ⟨pre, post, hsource, hpos, hrun, -⟩ := exists_cut_of_tokenize _ htokens
  obtain ⟨⟨c, hc, hdigit⟩, ⟨e', he', hstart⟩, cs, rest, rfl, hcomments, hypos, hne⟩ :=
    Lexer.exists_comments_of_run hrun rfl hxk hyk
  refine ⟨cs, hne fun e'' he'' => ?_, hcomments, ?_⟩
  · obtain rfl := Option.mem_unique he' he''
    exact hx.isDigit hxk hyk hc hdigit he' hstart
  · rw [hsource, hypos, hpos, ← List.append_assoc, slice?_append]

theorem comments_between_numbers_of_both :
    let d : Dialect := ⟨.insert .empty "x" (.required .formulaOfSelector), .empty, .reject, .reject,
      {}, {}⟩
    let text := ":x(1/**/2n+3/*b*//**/4 of a)"
    let t : Token := ⟨.ident, "x", 1⟩
    let xs : List Token := [⟨.number, "1", 3⟩, ⟨.number, "2", 8⟩, ⟨.ident, "n", 9⟩,
      ⟨.number, "+3", 10⟩, ⟨.number, "4", 21⟩, ⟨.whitespace, " ", 22⟩]
    let us : List Token := ⟨.leftParen, "(", 2⟩ :: (xs ++ [⟨.ident, "of", 23⟩,
      ⟨.whitespace, " ", 25⟩, ⟨.ident, "a", 26⟩, ⟨.rightParen, ")", 27⟩])
    let a : Argument := .formulaOfSelector ⟨12, 34⟩ (some ⟨[⟨[.tagName "a"]⟩]⟩)
    tokenize text = .ok (⟨.colon, ":", 0⟩ :: t :: us ++ [⟨.endOfInput, "", 28⟩]) ∧
      us <:+ ⟨.colon, ":", 0⟩ :: t :: us ∧
      (pseudoArgument (selectorTo 1) .pseudoClass t).run ⟨d, text.toList⟩ us =
        ⟨.ok (some a), [], []⟩ ∧
      a.formula? = some ⟨12, 34⟩ ∧
      ∃ cs, cs ≠ [] ∧ Scan.comments cs = ⟨(), cs, []⟩ ∧
        slice? text.toList 10 21 = some ("+3".toList ++ cs) := by
  intro d text t xs us a
  have ht : tokenize text = .ok (⟨.colon, ":", 0⟩ :: t :: us ++ [⟨.endOfInput, "", 28⟩]) := by cbv
  have hus : us <:+ ⟨.colon, ":", 0⟩ :: t :: us := ⟨[⟨.colon, ":", 0⟩, t], rfl⟩
  have hrun : (pseudoArgument (selectorTo 1) .pseudoClass t).run ⟨d, text.toList⟩ us =
      ⟨.ok (some a), [], []⟩ := by cbv
  obtain ⟨o, e, xs', ys, hsplit, -, he, hx, hall⟩ :=
    comments_between_numbers ht (by rwa [List.dropLast_concat]) hrun rfl
  have hxs : xs = xs' := by
    rw [← hx.takeWhile_append he ys, ← (List.cons.inj hsplit).2]
    decide
  exact ⟨ht, hus, hrun, rfl, hall _ _ (xs.take 3) (xs.drop 5) hxs.symm rfl rfl⟩

/-- The number 23 is nowhere in the source. -/
theorem comments_between_numbers_fused :
    let d : Dialect := ⟨.insert .empty "x" (.required .formula), .empty, .reject, .reject, {}, {}⟩
    d.parse ":x(2/**/3)" =
        .ok ⟨⟨[⟨[.pseudo .pseudoClass "x" (some (.formula ⟨0, 23⟩))]⟩]⟩, []⟩ ∧
      ¬ ∀ (d : Dialect) (n : Nat) (category : Category) (text : String) (t : Token)
          (ts us vs : List Token) (ws : List Warning) (a : Argument) (f : Formula),
        tokenize text = .ok ts → us <:+ ts.dropLast →
        (pseudoArgument (selectorTo n) category t).run ⟨d, text.toList⟩ us =
          ⟨.ok (some a), ws, vs⟩ → a.formula? = some f →
        ∀ (o e : Token) (xs ys : List Token), us = o :: (xs ++ e :: ys) →
          e.kind = .rightParen ∨ e.kind = .ident ∧ sameLetters e.text "of" → ReadsFormula xs f →
          ∀ (x y : Token) (before after : List Token), xs = before ++ x :: y :: after →
            ¬(x.kind = .number ∧ y.kind = .number) := by
  intro d
  refine ⟨by cbv, fun hall => ?_⟩
  let t : Token := ⟨.ident, "x", 1⟩
  let xs : List Token := [⟨.number, "2", 3⟩, ⟨.number, "3", 8⟩]
  let us : List Token := ⟨.leftParen, "(", 2⟩ :: (xs ++ [⟨.rightParen, ")", 9⟩])
  have ht : tokenize ":x(2/**/3)" =
      .ok (⟨.colon, ":", 0⟩ :: t :: us ++ [⟨.endOfInput, "", 10⟩]) := by cbv
  have hus : us <:+ ⟨.colon, ":", 0⟩ :: t :: us := ⟨[⟨.colon, ":", 0⟩, t], rfl⟩
  have hrun : (pseudoArgument (selectorTo 0) .pseudoClass t).run ⟨d, ":x(2/**/3)".toList⟩ us =
      ⟨.ok (some (.formula ⟨0, 23⟩)), [], []⟩ := by cbv
  have hread : ReadsFormula xs ⟨0, 23⟩ := ⟨['2', '3'], rfl, by cbv⟩
  exact hall d 0 .pseudoClass _ t _ us [] [] _ _ ht (by rwa [List.dropLast_concat]) hrun rfl _ _ xs []
    rfl (.inl rfl) hread _ _ [] [] rfl ⟨rfl, rfl⟩

end

end Parse
end CssSelector
