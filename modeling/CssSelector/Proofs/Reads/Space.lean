import CssSelector.Proofs.Formula.Blank
import CssSelector.Proofs.Reads.Nested

set_option autoImplicit false

namespace CssSelector

open Text

theorem Text.trim_blanks_append {bs : List Char} (h : ∀ b ∈ bs, isBlank b) (cs : List Char) :
    trim (bs ++ cs) = trim cs :=
  congrArg trimEnd (List.dropWhile_append_of_pos h)

namespace Parse
variable {c : Context} {xs s s' : List Token} {ms : List Mention}

theorem Reads.rule_append_spaces {r : Rule} (h : Reads c xs (.rule r) ms) (hs : Spaces s) :
    Reads c (xs ++ s) (.rule r) ms := by
  cases h with
  | rule hx hy hs₁ =>
    rw [List.append_assoc, List.append_assoc]
    exact .rule hx hy (Spaces.append_iff.2 ⟨hs₁, hs⟩)

theorem Reads.rules_append_spaces {rs : List Rule} (h : Reads c xs (.rules rs) ms) (hne : xs ≠ [])
    (hs : Spaces s) : Reads c (xs ++ s) (.rules rs) ms := by
  induction rs generalizing xs ms with
  | nil =>
    cases h
    contradiction
  | cons r rs ih =>
    cases h with
    | @rules t s₁ X Y _ _ m n ht hs₁ hX hY =>
      rw [List.cons_append, List.append_assoc, List.append_assoc]
      by_cases hnil : Y = []
      · subst hnil
        have hrule := hX.rule_append_spaces hs
        simpa using Reads.rules ht hs₁ hrule hY
      · exact .rules ht hs₁ hX (ih hY hnil)

theorem Reads.selector_append_spaces {T : Selector} (h : Reads c xs (.selector T) ms)
    (hs : Spaces s) : Reads c (xs ++ s) (.selector T) ms := by
  cases h with
  | @selector s₁ X Y r rs m n hs₁ hX hY =>
    rw [List.append_assoc, List.append_assoc]
    by_cases hnil : Y = []
    · subst hnil
      have hrule := hX.rule_append_spaces hs
      simpa using Reads.selector hs₁ hrule hY
    · exact .selector hs₁ hX (hY.rules_append_spaces hnil hs)

theorem ReadsFormula.spaces {f : Formula} (h : ReadsFormula xs f) (hs : Spaces s)
    (hs' : Spaces s') : ReadsFormula (s ++ (xs ++ s')) f := by
  obtain ⟨text, htext, hf⟩ := h
  obtain ⟨bs, hbs, hb⟩ := hs.exists_formulaTexts?
  obtain ⟨ds, hds, hd⟩ := hs'.exists_formulaTexts?
  refine ⟨bs ++ (text ++ ds), ?_, ?_⟩
  · rw [formulaTexts?_append hbs, formulaTexts?_append htext, hds]
    rfl
  · rwa [trim_blanks_append hb, trim_append_blanks _ hd]

theorem ReadsLiteral.spaces {kind : Token.Kind} {t : Token} (h : ReadsLiteral kind xs t)
    (hs : Spaces s) (hs' : Spaces s') : ReadsLiteral kind (s ++ (xs ++ s')) t := by
  obtain ⟨hs₁, ht, hs₂⟩ := h
  rw [List.append_assoc, List.cons_append, ← List.append_assoc]
  exact .mk (Spaces.append_iff.2 ⟨hs, hs₁⟩) ht (Spaces.append_iff.2 ⟨hs₂, hs'⟩)

theorem Reads.body_spaces {g : ArgumentGrammar} {a : Argument} (h : Reads c xs (.body g a) ms)
    (hs : Spaces s) (hs' : Spaces s') : Reads c (s ++ (xs ++ s')) (.body g a) ms := by
  cases h with
  | selectorBody h =>
    exact .selectorBody ((reads_spaces_append_iff hs).2 (h.selector_append_spaces hs'))
  | formula hx => exact .formula (hx.spaces hs hs')
  | formulaAlone hx => exact .formulaAlone (hx.spaces hs hs')
  | @formulaOf xs ys w t f _ _ hx hw ht hof hy =>
    -- in front it belongs to the formula, and behind to the selector
    have hfront : ReadsFormula ((s ++ xs) ++ [w]) f := by simpa using hx.spaces hs .nil
    simpa using Reads.formulaOf hfront hw ht hof (hy.selector_append_spaces hs')
  | string hx => exact .string (hx.spaces hs hs')
  | identifier hx => exact .identifier (hx.spaces hs hs')
  | number hx hv => exact .number (hx.spaces hs hs') hv

end Parse
end CssSelector
