import CssSelector.Proofs.Warnings

/-!
Where warnings point. Each is at a token of the text, and that is the construct it is about, with
what makes it that construct around it: the name behind a colon, the operator or the modifier of an
attribute selector, the combinator between two compounds. The descendant combinator is no token of
its own, and the warning about it is at the compound behind the white space
(`Dialect.shows_of_parse`).
-/

set_option autoImplicit false

namespace CssSelector

theorem Combinator.symbol_of_ofSymbol? {symbol : String} {k : Combinator}
    (h : ofSymbol? symbol = some k) : k.symbol = symbol := by
  simpa using List.find?_some h

theorem AttributeOperator.symbol_of_ofSymbol? {symbol : String} {op : AttributeOperator}
    (h : ofSymbol? symbol = some op) : op.symbol = symbol := by
  simpa using List.find?_some h

namespace Parse

/-- Between the tokens in front of it and behind it, a token shows a construct that a dialect may
not recognise. -/
inductive Shows (c : Context) : List Token → Token → List Token → Feature → Prop
  | name {o t : Token} {category : Category} :
      o.kind.itemStart? = some (.pseudo category) → t.kind = .ident →
      Shows c [o] t [] (.pseudo category t.text)
  | operator {s₁ s₂ s₃ : List Token} {o name t value : Token} {op : AttributeOperator} :
      o.kind = .leftBracket → Spaces s₁ → name.kind = .ident → Spaces s₂ →
      t.kind = .attributeOperator → op.symbol = t.text → Spaces s₃ →
      value.kind = .ident ∨ value.kind = .string →
      Shows c (o :: (s₁ ++ name :: s₂)) t (s₃ ++ [value]) (.operator op)
  | modifier {s₁ s₂ s₃ : List Token} {o value t close : Token} :
      o.kind = .attributeOperator → Spaces s₁ → value.kind = .ident ∨ value.kind = .string →
      Spaces s₂ → t.kind = .ident → Spaces s₃ → close.kind = .rightBracket →
      Shows c (o :: (s₁ ++ value :: s₂)) t (s₃ ++ [close]) (.modifier t.text)
  | combinator {s₁ s₂ xs ys : List Token} {t : Token} {is js : List Item} {ms ns : List Mention}
      {k : Combinator} :
      Reads c xs (.compound is) ms → Spaces s₁ → t.kind = .combinator → k.symbol = t.text →
      Spaces s₂ → Reads c ys (.compound js) ns → Shows c (xs ++ s₁) t (s₂ ++ ys) (.combinator k)
  | descendant {s xs ys : List Token} {t : Token} {is js : List Item} {ms ns : List Mention} :
      Reads c xs (.compound is) ms → Spaces s → s ≠ [] → Reads c (t :: ys) (.compound js) ns →
      Shows c (xs ++ s) t ys (.combinator .descendant)

/-- What is mentioned is shown by a token where it is mentioned. -/
def Points (c : Context) (ts : List Token) (m : Mention) : Prop :=
  ∃ before t after, before ++ t :: after <:+: ts ∧ t.position = m.position ∧
    Shows c before t after m.feature

def Phrase.Follows (c : Context) (before : List Token) : Phrase → Prop
  | .link _ | .links _ => ∃ xs is ms, xs <:+ before ∧ Reads c xs (.compound is) ms
  | _ => True

section
variable {c : Context} {xs ys : List Token} {m : Mention} {ms : List Mention}

theorem Points.mono (h : Points c xs m) (hxs : xs <:+: ys) : Points c ys m := by
  obtain ⟨before, t, after, hin, hp, hf⟩ := h
  exact ⟨before, t, after, hin.trans hxs, hp, hf⟩

theorem ReadsAttribute.points {o : Token} {a : Attribute} (ho : o.kind = .leftBracket)
    (h : ReadsAttribute xs a ms) (hm : m ∈ ms) : Points c (o :: xs) m := by
  cases h with
  | presence => contradiction
  | @comparison s₁ s₂ s₃ s₄ xs name operator value close op _ ns h₁ hn _ h₂ hop hsymbol h₃ hv h₄
      hmodifier hclose =>
    obtain rfl | hm := List.mem_cons.1 hm
    · have hop' := AttributeOperator.symbol_of_ofSymbol? hsymbol
      refine ⟨o :: (s₁ ++ name :: s₂), operator, s₃ ++ [value], ⟨[], s₄ ++ (xs ++ [close]), ?_⟩,
        rfl, .operator ho h₁ hn h₂ hop hop' h₃ hv⟩
      simp
    · cases hmodifier with
      | none => contradiction
      | @some t s ht hs =>
        obtain rfl := List.mem_singleton.1 hm
        refine ⟨operator :: (s₃ ++ value :: s₄), t, s ++ [close], ⟨o :: (s₁ ++ name :: s₂), [], ?_⟩,
          rfl, .modifier hop h₃ hv h₄ ht hs hclose⟩
        simp

theorem Reads.link_suffix {is : List Item} (h : Reads c xs (.link is) ms) :
    ∃ ys js ns, ys <:+ xs ∧ Reads c ys (.compound js) ns := by
  cases h with
  | descendant _ _ hy => exact ⟨_, _, _, List.suffix_append _ _, hy⟩
  | @combinator t _ s₁ s₂ ys _ _ _ _ _ _ hy =>
    exact ⟨ys, _, _, ⟨s₁ ++ t :: s₂, by simp⟩, hy⟩

/-- Mentions are at tokens that show what is mentioned. The compound in front of a link is no part
of the link, and so it has to be known to stand there. -/
theorem Reads.points {p : Phrase} (h : Reads c xs p ms) :
    ∀ before, p.Follows c before → ∀ m ∈ ms, Points c (before ++ xs) m := by
  induction h with
  | noRules | noLinks | noItems | tagName | universal | className | idName | bare | bareUnknown |
      loose | formula | formulaAlone | string | identifier | number => simp
  | @selector s xs ys _ _ _ _ _ _ _ ihx ihy =>
    intro before _ m hm
    obtain hm | hm := List.mem_append.1 hm
    · exact (ihx (before ++ s) trivial m hm).mono ⟨[], ys, by simp⟩
    · simpa using ihy (before ++ (s ++ xs)) trivial m hm
  | @rules t s xs ys _ _ _ _ _ _ _ _ ihx ihy =>
    intro before _ m hm
    obtain hm | hm := List.mem_append.1 hm
    · exact (ihx (before ++ t :: s) trivial m hm).mono ⟨[], ys, by simp⟩
    · simpa using ihy (before ++ t :: (s ++ xs)) trivial m hm
  | @rule s xs ys is js ms _ hx _ _ ihx ihy =>
    intro before _ m hm
    obtain hm | hm := List.mem_append.1 hm
    · exact (ihx before trivial m hm).mono ⟨[], ys ++ s, by simp⟩
    · have hfollows : Phrase.Follows c (before ++ xs) (.links js) :=
        ⟨xs, is, ms, List.suffix_append _ _, hx⟩
      exact (ihy (before ++ xs) hfollows m hm).mono ⟨[], s, by simp⟩
  | @links xs ys _ js _ _ hx _ ihx ihy =>
    intro before hfollows m hm
    obtain hm | hm := List.mem_append.1 hm
    · exact (ihx before hfollows m hm).mono ⟨[], ys, by simp⟩
    · obtain ⟨us, is, ns, hsuffix, hu⟩ := hx.link_suffix
      have hnext : Phrase.Follows c (before ++ xs) (.links js) :=
        ⟨us, is, ns, hsuffix.trans (List.suffix_append _ _), hu⟩
      simpa using ihy (before ++ xs) hnext m hm
  | @descendant s ys _ _ hs hne hy ih =>
    rintro before ⟨xs, is, ns, hsuffix, hx⟩ m hm
    obtain rfl | hm := List.mem_cons.1 hm
    · obtain ⟨t, ys, _, rfl, -⟩ := hy.compound_head
      obtain ⟨us, rfl⟩ := hsuffix
      exact ⟨xs ++ s, t, ys, ⟨us, [], by simp⟩, rfl, .descendant hx hs hne hy⟩
    · simpa using ih (before ++ s) trivial m hm
  | @combinator t k s₁ s₂ ys _ _ h₁ ht hk h₂ hy ih =>
    rintro before ⟨xs, is, ns, hsuffix, hx⟩ m hm
    obtain rfl | hm := List.mem_cons.1 hm
    · obtain ⟨us, rfl⟩ := hsuffix
      exact ⟨xs ++ s₁, t, s₂ ++ ys, ⟨us, [], by simp⟩, rfl,
        .combinator hx h₁ ht (Combinator.symbol_of_ofSymbol? hk) h₂ hy⟩
    · simpa using ih (before ++ (s₁ ++ t :: s₂)) trivial m hm
  | compound _ _ ih => exact ih
  | @items _ _ _ _ xs ys _ _ _ _ _ _ ihx ihy =>
    intro before _ m hm
    obtain hm | hm := List.mem_append.1 hm
    · exact (ihx before trivial m hm).mono ⟨[], ys, by simp⟩
    · simpa using ihy (before ++ xs) trivial m hm
  | «attribute» ho hx =>
    intro before _ m hm
    exact (hx.points ho hm).mono (List.suffix_append _ _).isInfix
  | @pseudo o t category xs _ _ ho ht _ _ ih =>
    intro before _ m hm
    obtain rfl | hm := List.mem_cons.1 hm
    · exact ⟨[o], t, [], ⟨before, xs, by simp⟩, rfl, .name ho ht⟩
    · simpa using ih (before ++ [o, t]) trivial m hm
  | @argument _ _ _ _ o t xs _ _ _ _ _ _ _ ih =>
    intro before _ m hm
    exact (ih (before ++ [o]) trivial m hm).mono ⟨[], [t], by simp⟩
  | selectorBody _ ih => exact ih
  | @formulaOf xs ys w t _ _ _ _ _ _ _ _ ih =>
    intro before _ m hm
    simpa using ih (before ++ (xs ++ [w, t])) trivial m hm

end
end Parse

namespace Dialect

open Parse

/-- A warning is about a construct that the dialect flags, and at the token that shows it. -/
theorem shows_of_parse {d : Dialect} {text : String} {r : Reading} (h : d.parse text = .ok r) :
    ∃ ts, tokenize text = .ok ts ∧ ∀ w ∈ r.warnings, ∃ before t after f,
      before ++ t :: after <:+: ts ∧ t.position = w.position ∧ w.message = f.message ∧ d.flags f ∧
        Shows ⟨d, text.toList⟩ before t after f := by
  obtain ⟨ts, ht, ms, hr, -, hw⟩ := parse_eq_ok.1 h
  refine ⟨ts, ht, fun w hmem => ?_⟩
  rw [hw, warnings, List.mem_map] at hmem
  obtain ⟨m, hm, rfl⟩ := hmem
  obtain ⟨hm, hflags⟩ := List.mem_filter.1 hm
  obtain ⟨before, t, after, hin, hp, hshows⟩ := hr.points [] trivial m hm
  exact ⟨before, t, after, m.feature, hin.trans (List.dropLast_prefix ts).isInfix, hp, rfl, hflags,
    hshows⟩

theorem shows_in_not :
    let d : Dialect := ⟨.insert .empty "not" (.required .selector), .empty, .warn, .warn,
      ⟨[.equals], [], .warn⟩, ⟨[], .warn⟩⟩
    let text := "a :not([b ~=/**/c i]) > d:x"
    let ts : List Token := [⟨.ident, "a", 0⟩, ⟨.whitespace, " ", 1⟩, ⟨.colon, ":", 2⟩,
      ⟨.ident, "not", 3⟩, ⟨.leftParen, "(", 6⟩, ⟨.leftBracket, "[", 7⟩, ⟨.ident, "b", 8⟩,
      ⟨.whitespace, " ", 9⟩, ⟨.attributeOperator, "~=", 10⟩, ⟨.ident, "c", 16⟩,
      ⟨.whitespace, " ", 17⟩, ⟨.ident, "i", 18⟩, ⟨.rightBracket, "]", 19⟩, ⟨.rightParen, ")", 20⟩,
      ⟨.whitespace, " ", 21⟩, ⟨.combinator, ">", 22⟩, ⟨.whitespace, " ", 23⟩, ⟨.ident, "d", 24⟩,
      ⟨.colon, ":", 25⟩, ⟨.ident, "x", 26⟩, ⟨.endOfInput, "", 27⟩]
    ∃ r, d.parse text = .ok r ∧
      r.warnings = [⟨"Unknown combinator: \" \".", 2⟩,
        ⟨"Unknown attribute operator: \"~=\".", 10⟩,
        ⟨"Unknown attribute case sensitivity modifier: \"i\".", 18⟩,
        ⟨"Unknown combinator: \">\".", 22⟩, ⟨"Unknown pseudo-class: \"x\".", 26⟩] ∧
      ∀ w ∈ r.warnings, ∃ before t after f, before ++ t :: after <:+: ts ∧
        t.position = w.position ∧ w.message = f.message ∧ d.flags f ∧
          Shows ⟨d, text.toList⟩ before t after f := by
  intro d text ts
  have hwarnings : (d.parse text).toOption.map Reading.warnings =
      some [⟨"Unknown combinator: \" \".", 2⟩, ⟨"Unknown attribute operator: \"~=\".", 10⟩,
        ⟨"Unknown attribute case sensitivity modifier: \"i\".", 18⟩,
        ⟨"Unknown combinator: \">\".", 22⟩, ⟨"Unknown pseudo-class: \"x\".", 26⟩] := by
    decide +kernel
  have htokens : tokenize text = .ok ts := by cbv
  obtain ⟨r, h, hr⟩ := exists_reading_of_warnings hwarnings
  obtain ⟨us, hus, hshows⟩ := shows_of_parse h
  cases htokens.symm.trans hus
  exact ⟨r, h, hr, hshows⟩

/-- The white space between the compounds is not where the warning is. -/
theorem shows_of_descendant :
    let d : Dialect := ⟨.empty, .empty, .accept, .accept, {}, ⟨[], .warn⟩⟩
    let ts : List Token :=
      [⟨.ident, "a", 0⟩, ⟨.whitespace, " ", 1⟩, ⟨.ident, "b", 2⟩, ⟨.endOfInput, "", 3⟩]
    tokenize "a b" = .ok ts ∧
      (d.parse "a b").toOption.map Reading.warnings = some [⟨"Unknown combinator: \" \".", 2⟩] ∧
      ¬∀ (d : Dialect) (text : String) (r : Reading), d.parse text = .ok r →
        ∃ ts, tokenize text = .ok ts ∧ ∀ w ∈ r.warnings,
          w.message = (Feature.combinator .descendant).message →
            ∃ t ∈ ts, t.kind = .whitespace ∧ t.position = w.position := by
  intro d ts
  have htokens : tokenize "a b" = .ok ts := by cbv
  have hwarnings : (d.parse "a b").toOption.map Reading.warnings =
      some [⟨"Unknown combinator: \" \".", 2⟩] := by decide +kernel
  refine ⟨htokens, hwarnings, fun hall => ?_⟩
  obtain ⟨r, h, hr⟩ := exists_reading_of_warnings hwarnings
  obtain ⟨us, hus, hspace⟩ := hall d "a b" r h
  cases htokens.symm.trans hus
  obtain ⟨t, ht, hk, hp⟩ := hspace _ (by rw [hr]; exact List.mem_cons_self) (by decide +kernel)
  have hnone : ∀ t ∈ ts, t.kind = .whitespace → t.position ≠ 2 := by decide
  exact hnone t ht hk hp

end Dialect
end CssSelector
