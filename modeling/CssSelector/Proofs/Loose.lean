import CssSelector.Proofs.Nested
import CssSelector.Proofs.Reads.Single
import CssSelector.Proofs.Tiling

/-!
Arguments of names that are not known. Such an argument is the source from its first token up to the
parenthesis that matches, so it is what is written there but for comments in front of that token
(`Dialect.parse_loose`).
-/

set_option autoImplicit false

namespace CssSelector

open Text

namespace Text

theorem count_trim {x : Char} (hx : ¬isBlank x) (cs : List Char) : (trim cs).count x = cs.count x := by
  have hnone {bs : List Char} (h : ∀ b ∈ bs, isBlank b) : bs.count x = 0 :=
    List.count_eq_zero.2 fun hm => hx (h x hm)
  obtain ⟨bs, ds, hcs, hbs, hds⟩ := exists_trim cs
  conv => rhs; rw [hcs, List.count_append, List.count_append, hnone hbs, hnone hds, Nat.zero_add]
  rfl

end Text

namespace Scan

theorem comments_of_no_comment {cs : List Char} (h : ¬['/', '*'] <+: cs) :
    comments cs = ⟨(), [], cs⟩ := by
  rw [comments.eq_2]
  rintro ds rfl
  exact h ⟨ds, rfl⟩

theorem trim_rest_comments_eq_iff {cs : List Char} :
    trim (comments cs).rest = trim cs ↔ ¬['/', '*'] <+: cs := by
  refine ⟨fun h hp => ?_, fun h => by rw [comments_of_no_comment h]⟩
  obtain ⟨ds, rfl⟩ := hp
  have hslash : ¬isBlank '/' := by decide
  have hcount := congrArg (List.count '/') h
  have hall := congrArg (List.count '/') (spelling_comments (['/', '*'] ++ ds))
  have hspelling : (comments (['/', '*'] ++ ds)).spelling.count '/' ≠ 0 := by
    rw [List.cons_append, List.cons_append, List.nil_append, comments]
    simp [after]
  rw [count_trim hslash, count_trim hslash] at hcount
  rw [List.count_append] at hall
  omega

end Scan

section
variable {text : String} {ts : List Token}

theorem position_of_tokenize {t : Token} (h : tokenize text = .ok (t :: ts)) :
    t.position = byteSize (Scan.comments text.toList).spelling := by
  obtain ⟨l, hstep, -⟩ := Lexer.exists_of_run_cons (by simp [Lexer.ofString]) (eq_map_ok_of_mapM h)
  obtain ⟨s, -, rfl, -⟩ := Lexer.exists_of_step hstep
  exact Nat.zero_add _

theorem Parse.position_front (h : tokenize text = .ok ts) (c : Parse.Context) {n : Nat} {r : Token}
    (hr : r.position = n + byteSize text.toList) :
    (c.front (ts.dropLast.map (Token.move (n + ·)) ++ [r])).position =
      n + byteSize (Scan.comments text.toList).spelling := by
  obtain ⟨-, us, e, rfl, -⟩ := tokenize_eq_ok h
  rw [List.dropLast_concat]
  cases us with
  | nil =>
    have he := position_of_tokenize h
    rw [last_of_tokenize (show tokenize text = .ok ([] ++ [e]) from h)] at he
    exact hr.trans (congrArg (n + ·) he)
  | cons t us => exact congrArg (n + ·) (position_of_tokenize h)

end

namespace Parse

theorem Balanced.of_move {f g : Nat → Nat} (hgf : ∀ n, g (f n) = n) {xs : List Token}
    (h : Balanced (xs.map (Token.move f))) : Balanced xs := by
  have hid : Token.move g ∘ Token.move f = id := by
    funext t
    simp [Token.move, hgf]
  have hback := h.move (f := g)
  rwa [List.map_map, hid, List.map_id] at hback

section
variable {c : Context} {category : Category} {o t l r : Token} {xs : List Token} {i : Item}

theorem reads_loose_iff (ho : o.kind.itemStart? = some (.pseudo category)) (ht : t.kind = .ident)
    (hne : t.text ≠ "") (hσ : c.dialect.signature? category t.text = none) (hl : l.kind = .leftParen)
    (hr : r.kind = .rightParen) {ms : List Mention} :
    Reads c (o :: t :: l :: (xs ++ [r])) (.selector (.single i)) ms ↔ Balanced xs ∧ ∃ text,
      slice? c.source (c.front (xs ++ [r])).position r.position = some text ∧
      i = .pseudo category t.text (some (.string (String.ofList (trim text)))) ∧
      ms = [⟨.pseudo category t.text, t.position⟩] := by
  constructor
  · intro h
    obtain ⟨vs, s, a, ns, hx, hs, rfl, rfl, ha⟩ := h.argument_of_single ho
    -- the token at the end is no white space
    obtain rfl : s = [] := by
      by_contra hne
      have hlast := congrArg List.getLast? hx
      rw [← List.cons_append, List.getLast?_concat, List.getLast?_append_of_ne_nil _ hne] at hlast
      have hspace := hs r (List.mem_of_getLast? hlast.symm)
      rw [hr] at hspace
      contradiction
    rw [List.append_nil] at hx
    subst hx
    generalize hts : l :: (xs ++ [r]) = us at ha
    cases ha with
    | bare | bareUnknown => contradiction
    | argument hσ' => simp [hσ] at hσ'
    | loose _ _ hb _ hslice =>
      obtain ⟨rfl, htail⟩ := List.append_inj' (List.cons.inj hts).2 rfl
      obtain rfl := List.singleton_inj.1 htail
      exact ⟨hb, _, hslice, rfl, rfl⟩
  · rintro ⟨hb, text, hslice, rfl, rfl⟩
    exact (Reads.pseudo ho ht hne (.loose hσ hl hb hr hslice)).single_of_item rfl

end

end Parse

namespace Dialect

open Parse

theorem parseTokens_loose_eq_ok {d : Dialect} {source : List Char} {category : Category}
    {o t l r : Token} {xs : List Token} {i : Item} {ws : List Warning}
    (ho : o.kind.itemStart? = some (.pseudo category)) (ht : t.kind = .ident) (hne : t.text ≠ "")
    (hσ : d.signature? category t.text = none) (hl : l.kind = .leftParen)
    (hr : r.kind = .rightParen) :
    d.parseTokens source (o :: t :: l :: (xs ++ [r])) = .ok ⟨.single i, ws⟩ ↔
      Balanced xs ∧ ∃ text,
        slice? source ((⟨d, source⟩ : Context).front (xs ++ [r])).position r.position = some text ∧
        i = .pseudo category t.text (some (.string (String.ofList (trim text)))) ∧
        d.Passes [⟨.pseudo category t.text, t.position⟩] ws := by
  rw [parseTokens_eq_ok]
  constructor
  · rintro ⟨ms, hread, hpass⟩
    obtain ⟨hb, text, hslice, hi, rfl⟩ := (reads_loose_iff ho ht hne hσ hl hr).1 hread
    exact ⟨hb, text, hslice, hi, hpass⟩
  · rintro ⟨hb, text, hslice, hi, hpass⟩
    exact ⟨_, (reads_loose_iff ho ht hne hσ hl hr).2 ⟨hb, text, hslice, hi, rfl⟩, hpass⟩

section
variable {d : Dialect} {category : Category} {p s : String} {ts : List Token}

/-- What stands between the parentheses of a name that is not known comes to its text behind the
comments in front, without blanks around it. -/
theorem parse_loose_eq_ok (hp : p ≠ "") (ha : ∀ c ∈ p.toList, c.isAlpha)
    (hσ : d.signature? category p = none) (ht : tokenize s = .ok ts) (hc : ¬endsInComment s)
    {i : Item} {ws : List Warning} :
    d.parse (category.colons ++ p ++ "(" ++ s ++ ")") = .ok ⟨.single i, ws⟩ ↔
      Balanced ts.dropLast ∧
        i = .pseudo category p
          (some (.string (String.ofList (trim (Scan.comments s.toList).rest)))) ∧
        d.Passes [⟨.pseudo category p, byteSize category.colons.toList⟩] ws := by
  have hclose : byteSize (category.colons ++ p ++ "(" ++ s).toList =
      byteSize (category.colons ++ p ++ "(").toList + byteSize s.toList := by
    rw [String.toList_append, byteSize_append]
  have hbreaks : Scan.Breaks [')'] := Scan.breaks_cons (by decide) []
  have hx := (Lexes.of_tokenize ht hc hbreaks).add
    (byteSize (category.colons ++ p ++ "(").toList)
  rw [parse_of_tokenize (tokenize_pseudo hp ha hx), List.dropLast_concat, toList_enclosed]
  generalize hN : (category.colons ++ p ++ "(").toList = front at *
  have hslice : slice? (front ++ (s.toList ++ [')']))
      (byteSize front + byteSize (Scan.comments s.toList).spelling)
      (byteSize front + byteSize s.toList) = some (Scan.comments s.toList).rest := by
    have hs := slice?_append (Scan.comments s.toList).spelling (Scan.comments s.toList).rest [')']
    rwa [← byteSize_append, Scan.spelling_comments, ← slice?_add] at hs
  refine (parseTokens_loose_eq_ok (t := ⟨.ident, p, _⟩) (by simp) rfl hp hσ rfl rfl).trans ?_
  rw [position_front ht _ hclose, hclose, hslice]
  constructor
  · rintro ⟨hb, text, ⟨⟩, hi, hpass⟩
    exact ⟨.of_move (g := (· - byteSize front)) (fun n => Nat.add_sub_cancel_left _ n) hb, hi, hpass⟩
  · rintro ⟨hb, hi, hpass⟩
    exact ⟨hb.move, _, rfl, hi, hpass⟩

/-- The argument of a name that is not known parses as long as its parentheses are balanced, to its
text without blanks around it, which is all that is written if no comment stands in front. -/
theorem parse_loose (hp : p ≠ "") (ha : ∀ c ∈ p.toList, c.isAlpha)
    (hσ : d.signature? category p = none) (hpolicy : d.policyOn (.pseudo category p) ≠ .reject)
    (ht : tokenize s = .ok ts) (hc : ¬endsInComment s) :
    (Balanced ts.dropLast → ∃ text,
      d.parse (category.colons ++ p ++ "(" ++ s ++ ")") =
        .ok ⟨.single (.pseudo category p (some (.string text))),
          d.warnings [⟨.pseudo category p, byteSize category.colons.toList⟩]⟩ ∧
      text = String.ofList (trim (Scan.comments s.toList).rest) ∧
      (text = String.ofList (trim s.toList) ↔ ¬['/', '*'] <+: s.toList)) ∧
    (¬Balanced ts.dropLast → ∀ i ws,
      d.parse (category.colons ++ p ++ "(" ++ s ++ ")") ≠ .ok ⟨.single i, ws⟩) := by
  constructor
  · intro hb
    refine ⟨_, (parse_loose_eq_ok hp ha hσ ht hc).2 ⟨hb, rfl, ?_, rfl⟩, rfl, ?_⟩
    · simpa [admits] using .inr hpolicy
    · rw [String.ofList_inj, Scan.trim_rest_comments_eq_iff]
  · intro hb i ws hr
    exact hb ((parse_loose_eq_ok hp ha hσ ht hc).1 hr).1

/-- Parentheses in a string and in a comment are no tokens, and a comment behind white space is kept,
as is one at the end. -/
theorem parse_loose_around_comment :
    let d : Dialect := ⟨.empty, .empty, .reject, .accept, {}, {}⟩
    let s := " /*(*/(\"é)\")/**/ "
    let ts : List Token := [⟨.whitespace, " ", 0⟩, ⟨.leftParen, "(", 6⟩, ⟨.string, "é)", 7⟩,
      ⟨.rightParen, ")", 12⟩, ⟨.whitespace, " ", 17⟩, ⟨.endOfInput, "", 18⟩]
    tokenize s = .ok ts ∧ Balanced ts.dropLast ∧ ¬endsInComment s ∧
      d.parse (Category.pseudoElement.colons ++ "x" ++ "(" ++ s ++ ")") =
        .ok ⟨.single (.pseudo .pseudoElement "x" (some (.string "/*(*/(\"é)\")/**/"))), []⟩ ∧
      ∀ i ws, d.parse (Category.pseudoElement.colons ++ "x" ++ "(" ++ ")(" ++ ")") ≠
        .ok ⟨.single i, ws⟩ := by
  intro d s ts
  have hx : ∀ c ∈ "x".toList, c.isAlpha := List.all_eq_true.1 (by decide)
  have hσ : d.signature? .pseudoElement "x" = none := by rfl
  have hs : tokenize s = .ok ts := by cbv
  have hc : endsInComment s = false := by cbv
  have hb : Balanced ts.dropLast :=
    .token (by simp) (by simp)
      (.parens rfl (.token (by simp) (by simp) .nil) rfl (.token (by simp) (by simp) .nil))
  have ht : tokenize ")(" = .ok [⟨.rightParen, ")", 0⟩, ⟨.leftParen, "(", 1⟩,
    ⟨.endOfInput, "", 2⟩] := by cbv
  have hopen : endsInComment ")(" = false := by cbv
  obtain ⟨text, hparse, -, htext⟩ :=
    (parse_loose (by decide) hx hσ (by decide) hs (by simp [hc])).1 hb
  refine ⟨hs, hb, by simp [hc], ?_, ?_⟩
  · rw [hparse, htext.2 (by decide)]
    cbv
  · refine (parse_loose (by decide) hx hσ (by decide) ht (by simp [hopen])).2 ?_
    exact fun h => absurd (h.closing?_append 0 []) (by decide)

/-- A comment in front of the first token is lost, though one at the end is kept. -/
theorem parse_loose_comment_in_front :
    let d : Dialect := ⟨.empty, .empty, .accept, .accept, {}, {}⟩
    d.parse ":x(/*c*/a)" = .ok ⟨.single (.pseudo .pseudoClass "x" (some (.string "a"))), []⟩ ∧
      d.parse ":x(a/*c*/)" =
        .ok ⟨.single (.pseudo .pseudoClass "x" (some (.string "a/*c*/"))), []⟩ ∧
      ¬ ∀ (d : Dialect) (category : Category) (p s : String) (ts : List Token), p ≠ "" →
        (∀ c ∈ p.toList, c.isAlpha) → d.signature? category p = none →
        d.policyOn (.pseudo category p) ≠ .reject → tokenize s = .ok ts → ¬endsInComment s →
        Balanced ts.dropLast → ∃ ws, d.parse (category.colons ++ p ++ "(" ++ s ++ ")") =
          .ok ⟨.single (.pseudo category p (some (.string (String.ofList (trim s.toList))))), ws⟩ := by
  intro d
  have hfront : d.parse ":x(/*c*/a)" =
      .ok ⟨.single (.pseudo .pseudoClass "x" (some (.string "a"))), []⟩ := by cbv
  have hback : d.parse ":x(a/*c*/)" =
      .ok ⟨.single (.pseudo .pseudoClass "x" (some (.string "a/*c*/"))), []⟩ := by cbv
  refine ⟨hfront, hback, fun hall => ?_⟩
  have hx : ∀ c ∈ "x".toList, c.isAlpha := List.all_eq_true.1 (by decide)
  have ht : tokenize "/*c*/a" = .ok [⟨.ident, "a", 5⟩, ⟨.endOfInput, "", 6⟩] := by cbv
  have hc : endsInComment "/*c*/a" = false := by cbv
  obtain ⟨ws, hparse⟩ := hall d .pseudoClass "x" "/*c*/a" _ (by decide) hx (by rfl) (by decide) ht
    (by simp [hc]) (.token (by simp) (by simp) .nil)
  rw [show Category.pseudoClass.colons ++ "x" ++ "(" ++ "/*c*/a" ++ ")" = ":x(/*c*/a)" by decide,
    hfront, show String.ofList (trim "/*c*/a".toList) = "/*c*/a" by decide] at hparse
  simp [Selector.single] at hparse

end
end Dialect
end CssSelector
