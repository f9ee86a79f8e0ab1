import CssSelector.Proofs.Lexing.Verbatim
import CssSelector.Proofs.Nested
import CssSelector.Proofs.Reads.Single

set_option autoImplicit false

namespace CssSelector

open Text

namespace Lexer

open Scan Parse

section
variable {n : Nat} {cs text : List Char} {xs ws : List Token} {c e : Token}

theorem isBlank_of_run (hslash : '/' ∉ cs) (hback : '\\' ∉ cs) (hw : Spaces ws)
    (he : e.kind = .endOfInput) (h : run ⟨n, cs, false⟩ = (ws ++ [e]).map .ok) :
    ∀ c ∈ cs, isBlank c := by
  obtain ⟨text, htext, hblank⟩ := hw.exists_formulaTexts?
  obtain ⟨pre, post, rfl, halike, hrun⟩ := exists_alike_of_run hslash hback h htext
  obtain ⟨l, hstep, -⟩ := exists_of_run_cons (by simp) hrun
  obtain ⟨s, hs, rfl, -⟩ := exists_of_step_verbatim (fun hm => hslash (by simp [hm])) hstep
  rw [eq_nil_of_token hs he, List.append_nil]
  exact halike.isBlank hblank

theorem alike_of_run_rightParen (hslash : '/' ∉ cs) (hback : '\\' ∉ cs) (hw : Spaces ws)
    (hc : c.kind = .rightParen) (he : e.kind = .endOfInput)
    (h : run ⟨n, cs ++ [')'], false⟩ = (xs ++ c :: (ws ++ [e])).map .ok)
    (ht : formulaTexts? xs = some text) : Alike cs text := by
  have hslash' : '/' ∉ cs ++ [')'] := by simpa using hslash
  have hback' : '\\' ∉ cs ++ [')'] := by simpa using hback
  obtain ⟨pre, post, hcs, halike, hrun⟩ := exists_alike_of_run hslash' hback' h ht
  rw [hcs, List.mem_append, not_or] at hslash' hback'
  obtain ⟨l, hstep, hrun⟩ := exists_of_run_cons (by simp) hrun
  obtain ⟨s, hs, rfl, hpost, rfl⟩ := exists_of_step_verbatim hslash'.2 hstep
  rw [spelling_of_rightParen hs hc] at hpost
  have hend : decide (s.value.1 = .endOfInput) = false := by simp [show s.value.1 = _ from hc]
  rw [hend] at hrun
  have hblank := isBlank_of_run (fun hm => hslash'.2 (by simp [hpost, hm]))
    (fun hm => hback'.2 (by simp [hpost, hm])) hw he hrun
  rw [hpost, ← List.append_assoc] at hcs
  rcases List.eq_nil_or_concat s.rest with hnil | ⟨rs, r, hr⟩
  · rw [hnil, List.append_nil] at hcs
    rwa [List.append_cancel_right hcs]
  · -- the last character is no blank
    rw [hr, List.concat_eq_append, ← List.append_assoc] at hcs
    obtain ⟨-, hlast⟩ := List.append_inj' hcs rfl
    have hr := hblank r (by simp [hr])
    rw [← List.singleton_inj.1 hlast] at hr
    contradiction

end
end Lexer

namespace Dialect

open Parse

section
variable {d : Dialect} {p F : String} {σ : Signature} {f : Formula} {ws : List Warning}

theorem ofText?_of_parse_argument (hp : p ≠ "") (ha : ∀ c ∈ p.toList, c.isAlpha)
    (hslash : '/' ∉ F.toList) (hback : '\\' ∉ F.toList)
    (h : d.parse (":" ++ p ++ "(" ++ F ++ ")") =
      .ok ⟨.single (.pseudo .pseudoClass p (some (.formula f))), ws⟩) :
    Formula.ofText? F = some f := by
  obtain ⟨ts, ht, ms, hr, -⟩ := parse_eq_ok.1 h
  obtain ⟨-, us, e, rfl, he, -⟩ := tokenize_eq_ok ht
  rw [List.dropLast_concat] at hr
  obtain ⟨us, rfl, hrun⟩ := @exists_of_tokenize_pseudo .pseudoClass p F us e hp ha ht
  obtain ⟨vs, s, a, ns, hx, hs, hi, -, harg⟩ := hr.argument_of_single rfl
  cases hi
  cases harg with
  | @argument _ _ _ _ o c xs _ _ _ _ ho hbody hc =>
    cases hbody with
    | formula hread =>
      obtain ⟨text, htext, hf⟩ := hread
      obtain rfl : us = xs ++ c :: s := by simpa using (List.cons.inj hx).2
      rw [List.append_assoc, List.cons_append] at hrun
      have halike := Lexer.alike_of_run_rightParen hslash hback hs hc he hrun htext
      rw [Formula.ofText?, Formula.read?_eq_of_alike halike, ← Formula.read?_trim, hf]

/-- A formula between the parentheses of a pseudo-class that takes one is what its text is, and
nothing else there is a formula. -/
theorem parse_formulaArgument (hp : p ≠ "") (ha : ∀ c ∈ p.toList, c.isAlpha)
    (hσ : d.signature? .pseudoClass p = some σ) (hg : σ.argument = some .formula)
    (hslash : '/' ∉ F.toList) (hback : '\\' ∉ F.toList) (hv : '\x0b' ∉ F.toList) :
    d.parse (":" ++ p ++ "(" ++ F ++ ")") =
        .ok ⟨.single (.pseudo .pseudoClass p (some (.formula f))), ws⟩ ↔
      Formula.ofText? F = some f ∧ ws = [] := by
  have hparse (h : Formula.ofText? F = some f) : d.parse (":" ++ p ++ "(" ++ F ++ ")") =
      .ok ⟨.single (.pseudo .pseudoClass p (some (.formula f))), []⟩ := by
    have hhead : ∀ u ∈ [')'].head?, ¬Scan.isSpace u := by
      rintro u ⟨⟩
      decide
    obtain ⟨xs, hx, hread⟩ := Lexes.exists_of_read? h hv (.inr hhead) (Scan.endsWord_paren [])
      (byteSize (":" ++ p ++ "(").toList)
    exact (parse_pseudoClass_eq_ok hp ha hσ hg hx hread.balanced).2
      ⟨_, [], rfl, .formula hread, .nil⟩
  constructor
  · intro h
    have hf := ofText?_of_parse_argument hp ha hslash hback h
    rw [hparse hf] at h
    cases h
    exact ⟨hf, rfl⟩
  · rintro ⟨hf, rfl⟩
    exact hparse hf

theorem parse_formulaArgument_spaced :
    let d : Dialect := ⟨.insert .empty "x" (.required .formula), .empty, .reject, .reject, {}, {}⟩
    let item (f : Formula) : Item := .pseudo .pseudoClass "X" (some (.formula f))
    d.parse (":" ++ "X" ++ "(" ++ "\t-N +\u00A03\n" ++ ")") = .ok ⟨.single (item ⟨-1, 3⟩), []⟩ ∧
      ∀ f ws, d.parse (":" ++ "X" ++ "(" ++ "2):X(2" ++ ")") ≠ .ok ⟨.single (item f), ws⟩ := by
  intro d item
  have ha : ∀ c ∈ "X".toList, c.isAlpha := List.all_eq_true.1 (by decide)
  have hσ : d.signature? .pseudoClass "X" = some (.required .formula) := by rfl
  constructor
  · exact (parse_formulaArgument (by decide) ha hσ rfl (by decide) (by decide) (by decide)).2
      ⟨by decide, rfl⟩
  · intro f ws h
    obtain ⟨hf, -⟩ := (parse_formulaArgument (by decide) ha hσ rfl (by decide) (by decide)
      (by decide)).1 h
    have hnone : Formula.ofText? "2):X(2" = none := by cbv
    exact Option.some_ne_none f (hf.symm.trans hnone)

end
end Dialect
end CssSelector
