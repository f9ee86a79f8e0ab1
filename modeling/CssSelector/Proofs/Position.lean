import CssSelector.Proofs.Safety
import CssSelector.Proofs.Warnings

/-!
What is reported of a text is reported at its tokens: a flaw at one of them, if need be at the end of
the input, and a warning at one that is not the end. So all positions are between characters of the
text (`Dialect.located_parse`).
-/

set_option autoImplicit false

namespace CssSelector

open Parse Text

def IsBoundary (text : String) (n : Nat) : Prop :=
  ∃ xs ys, text.toList = xs ++ ys ∧ n = byteSize xs

section
variable {text : String} {ts : List Token}

theorem IsBoundary.le {n : Nat} (h : IsBoundary text n) : n ≤ byteSize text.toList := by
  obtain ⟨xs, ys, htext, rfl⟩ := h
  rw [htext, byteSize_append]
  exact Nat.le_add_right _ _

theorem isBoundary_of_tokenize (h : tokenize text = .ok ts) {t : Token} (ht : t ∈ ts) :
    IsBoundary text t.position := by
  obtain ⟨⟨xs, ys⟩, hs⟩ := Option.isSome_iff_exists.1 ((tiles_of_tokenize h).boundary t ht)
  exact ⟨xs, ys, splitAt?_eq_some hs⟩

namespace Dialect
variable {d : Dialect}

theorem exists_token_of_malformed {flaw : Flaw} {n : Nat}
    (h : d.parse text = .error (.malformed flaw n)) :
    ∃ ts, tokenize text = .ok ts ∧ ∃ t ∈ ts, t.position = n := by
  cases ht : tokenize text with
  | error e =>
    rw [parse_of_lexError ht] at h
    cases h
  | ok ts =>
    cases allows_of_parse ht h with
    | malformed _ place =>
      obtain ⟨t, hmem, rfl⟩ := place
      rw [Site.ofTokenize, ← (tokens_of_tokenize d ht).1] at hmem
      exact ⟨ts, rfl, t, hmem, rfl⟩

theorem exists_token_of_warning {r : Reading} (h : d.parse text = .ok r) {w : Warning}
    (hw : w ∈ r.warnings) :
    ∃ ts, tokenize text = .ok ts ∧ ∃ t ∈ ts, t.kind ≠ .endOfInput ∧ t.position = w.position := by
  obtain ⟨ts, ht, hs⟩ := position_warnings_of_parse h
  obtain ⟨t, hmem, hp⟩ := List.mem_map.1 (hs.subset (List.mem_map_of_mem hw))
  exact ⟨ts, ht, t, List.mem_of_mem_dropLast hmem, (tokens_of_tokenize d ht).2 t hmem, hp⟩

/-- All that is reported of the text is reported at tokens, which are between characters. -/
structure Located (d : Dialect) (text : String) : Prop where
  malformed : ∀ flaw n, d.parse text = .error (.malformed flaw n) →
    (∃ ts, tokenize text = .ok ts ∧ ∃ t ∈ ts, t.position = n) ∧
      IsBoundary text n ∧ n ≤ byteSize text.toList
  warning : ∀ r, d.parse text = .ok r → ∀ w ∈ r.warnings,
    (∃ ts, tokenize text = .ok ts ∧ ∃ t ∈ ts, t.kind ≠ .endOfInput ∧ t.position = w.position) ∧
      IsBoundary text w.position ∧ w.position ≤ byteSize text.toList

theorem located_parse (d : Dialect) (text : String) : d.Located text where
  malformed flaw n h := by
    obtain ⟨ts, ht, t, hmem, rfl⟩ := exists_token_of_malformed h
    have hb := isBoundary_of_tokenize ht hmem
    exact ⟨⟨ts, ht, t, hmem, rfl⟩, hb, hb.le⟩
  warning r h w hw := by
    obtain ⟨ts, ht, t, hmem, hk, hp⟩ := exists_token_of_warning h hw
    have hb := isBoundary_of_tokenize ht hmem
    rw [hp] at hb
    exact ⟨⟨ts, ht, t, hmem, hk, hp⟩, hb, hb.le⟩

example :
    let d : Dialect := ⟨.empty, .empty, .accept, .accept, {}, {}⟩
    d.parse "/*é*/\\41 é:\\62(x" = .error (.malformed .unclosedParen 16) ∧
      tokenize "/*é*/\\41 é:\\62(x" = .ok [⟨.ident, "Aé", 6⟩, ⟨.colon, ":", 12⟩, ⟨.ident, "b", 13⟩,
        ⟨.leftParen, "(", 16⟩, ⟨.ident, "x", 17⟩, ⟨.endOfInput, "", 18⟩] := by
  cbv

end Dialect
end
end CssSelector
