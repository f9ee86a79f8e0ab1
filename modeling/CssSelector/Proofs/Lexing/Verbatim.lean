import CssSelector.Proofs.Lexing.Cut
import CssSelector.Proofs.Lexing.Plain

set_option autoImplicit false

namespace CssSelector

open Text

theorem Text.Alike.isBlank {xs ys : List Char} (h : Alike xs ys) (hy : ∀ y ∈ ys, Text.isBlank y) :
    ∀ x ∈ xs, Text.isBlank x := by
  induction h with
  | nil => exact hy
  | char c _ ih =>
    obtain ⟨hc, hy⟩ := List.forall_mem_cons.1 hy
    exact List.forall_mem_cons.2 ⟨hc, ih hy⟩
  | blanks _ _ hb _ _ ih =>
    exact List.forall_mem_append.2 ⟨hb, ih (List.forall_mem_append.1 hy).2⟩

namespace Scan
variable {cs : List Char} {s : Scan (Token.Kind × String)}

theorem value_name (h : '\\' ∉ cs) : (name cs).value = (name cs).spelling := by
  fun_induction name cs with
  | case1 | case4 | case5 => rfl
  | case2 => exact absurd List.mem_cons_self h
  | case3 c cs hno hc ih => exact congrArg (c :: ·) (ih fun hm => h (List.mem_cons_of_mem c hm))

theorem alike_of_token (h : token cs = .ok s) (hback : '\\' ∉ cs) {n : Nat} {text : List Char}
    (ht : Parse.formulaText? ⟨s.value.1, s.value.2, n⟩ = some text) : Alike s.spelling text := by
  cases token_eq_ok.1 h with
  | @space c cs hc =>
    cases ht
    have hspaces : ∀ x ∈ c :: cs.takeWhile isSpace, isBlank x := List.forall_mem_cons.2
      ⟨isBlank_of_isSpace hc, fun x hx => isBlank_of_isSpace (List.mem_takeWhile_imp hx)⟩
    have hblank := Alike.blanks (by simp) (by simp) hspaces
      (List.forall_mem_singleton.2 (by decide : Text.isBlank ' ')) .nil
    simpa using hblank
  | number =>
    obtain rfl : numeral cs = text := by simpa [Parse.formulaText?] using ht
    exact .refl _
  | name =>
    obtain rfl : (name cs).value = text := by simpa [Parse.formulaText?] using ht
    rw [value_name hback]
    exact .refl _
  | @mark _ _ m _ _ _ hm =>
    obtain ⟨m, kind⟩ := m
    have hall : ∀ m ∈ marks, m.2 ≠ .whitespace := by decide
    have hkind := hall _ (List.mem_of_find?_eq_some hm)
    obtain rfl : m = text := by
      cases kind <;> simp [Parse.formulaText?] at ht hkind <;> exact ht
    exact .refl m
  | _ => simp [Parse.formulaText?] at ht

theorem spelling_of_rightParen (h : token cs = .ok s) (hk : s.value.1 = .rightParen) :
    s.spelling = [')'] := by
  cases token_eq_ok.1 h with
  | mark _ _ _ hm =>
    have hall : ∀ m ∈ marks, m.2 = .rightParen → m.1 = [')'] := by decide
    exact hall _ (List.mem_of_find?_eq_some hm) hk
  | _ => contradiction

end Scan

namespace Lexer

open Scan Parse

section
variable {n : Nat} {cs text : List Char} {xs after : List Token} {c t : Token} {l : Lexer}

theorem exists_of_step_verbatim (hslash : '/' ∉ cs) (h : step ⟨n, cs, false⟩ = (.ok t, l)) :
    ∃ s, token cs = .ok s ∧ t = ⟨s.value.1, s.value.2, n⟩ ∧ cs = s.spelling ++ s.rest ∧
      l = ⟨n + byteSize s.spelling, s.rest, s.value.1 = .endOfInput⟩ := by
  obtain ⟨s, hs, rfl, rfl⟩ := exists_of_step h
  have hcomments := comments_of_head fun hm => hslash (List.mem_of_head? hm)
  rw [hcomments] at hs ⊢
  exact ⟨s, hs, rfl, (spelling_token hs).symm, rfl⟩

/-- The text in front of a token is what the tokens before it say. -/
theorem exists_alike_of_run (hslash : '/' ∉ cs) (hback : '\\' ∉ cs)
    (h : run ⟨n, cs, false⟩ = (xs ++ c :: after).map .ok) (ht : formulaTexts? xs = some text) :
    ∃ pre post, cs = pre ++ post ∧ Alike pre text ∧
      run ⟨n + byteSize pre, post, false⟩ = (c :: after).map .ok := by
  induction xs generalizing n cs text with
  | nil =>
    cases ht
    exact ⟨[], cs, rfl, .nil, h⟩
  | cons t xs ih =>
    obtain ⟨l, hstep, hrun⟩ := exists_of_run_cons (by simp) h
    obtain ⟨hf, -⟩ := kind_ne_of_run_cons hstep hrun (by simp)
    obtain ⟨s, hs, rfl, hcs, rfl⟩ := exists_of_step_verbatim hslash hstep
    obtain ⟨first, rest, hfirst, hrest, rfl⟩ := exists_of_formulaTexts?_cons ht
    rw [hcs, List.mem_append, not_or] at hslash hback
    rw [Bool.not_eq_true] at hf
    rw [show decide (s.value.1 = .endOfInput) = false from hf] at hrun
    obtain ⟨pre, post, hpost, halike, hrun⟩ := ih hslash.2 hback.2 hrun hrest
    refine ⟨s.spelling ++ pre, post, by rw [List.append_assoc, ← hpost, ← hcs], ?_, ?_⟩
    · exact (alike_of_token hs (by rw [hcs]; simpa using hback) hfirst).append halike
    · rw [byteSize_append, ← Nat.add_assoc, hrun]

end
end Lexer
end CssSelector
