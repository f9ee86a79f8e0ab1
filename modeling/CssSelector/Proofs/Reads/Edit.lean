import CssSelector.Proofs.Reads.Space
import CssSelector.Proofs.Rename
import CssSelector.Proofs.Role

/-!
Edits that change nothing but names. By its role a token may get white space in front of it or behind
it, and another text. Attribute selectors and formulas are then read as before
(`ReadsAttribute.edit`, `ReadsFormula.edit`).
-/

set_option autoImplicit false

namespace CssSelector

open Text

namespace Role

def spaceBefore : Role → Bool
  | separator | closing | bracketed => true
  | _ => false

def spaceAfter : Role → Bool
  | separator | opening | bracketed => true
  | _ => false

def Keeps (φ : String → String) : Role → String → String → Prop
  | name, text, text' => φ text' = φ text
  | formula, text, text' | keyword, text, text' => fold text' = fold text
  | _, text, text' => text' = text

theorem keeps_refl (φ : String → String) (ρ : Role) (text : String) : ρ.Keeps φ text text := by
  cases ρ <;> rfl

def Fixed (ρ : Role) : Prop := ρ = .plain ∨ ρ = .literal ∨ ρ = .loose

end Role

namespace Parse

/-- What becomes of a token: the same kind at its new place, with white space around it where that
says nothing. -/
inductive Edit (φ : String → String) (f : Nat → Nat) (ρ : Role) (t : Token) : List Token → Prop
  | mk {s s' : List Token} {text : String} : Spaces s → Spaces s' → (s ≠ [] → ρ.spaceBefore) →
      (s' ≠ [] → ρ.spaceAfter) → ρ.Keeps φ t.text text →
      Edit φ f ρ t (s ++ ⟨t.kind, text, f t.position⟩ :: s')

/-- No piece of the source changes that the argument of a name that is not known may be cut from. -/
def KeptLoose (c c' : Context) (f : Nat → Nat) (z : Zone) (xs : List Token) : Prop :=
  ∀ o us, o :: us <:+: z.roles c.dialect xs → o.1.kind = .leftParen →
    (∀ a ∈ o :: us, a.2 = .loose) → Kept c c' f ((o :: us).map Prod.fst)

structure Edits (c c' : Context) (φ : String → String) (f : Nat → Nat) (e : Token → List Token)
    (z : Zone) (xs : List Token) : Prop where
  edit : ∀ a ∈ z.roles c.dialect xs, Edit φ f a.2 a.1 (e a.1)
  kept : KeptLoose c c' f z xs

section
variable {φ : String → String} {f : Nat → Nat} {ρ : Role} {t : Token} {us : List Token}

theorem Edit.move (φ : String → String) (f : Nat → Nat) (ρ : Role) (t : Token) :
    Edit φ f ρ t [t.move f] :=
  @Edit.mk _ _ _ _ [] [] _ .nil .nil (absurd rfl) (absurd rfl) (ρ.keeps_refl φ t.text)

theorem Edit.exists_of_not_spaced (h : Edit φ f ρ t us) (hb : ¬ρ.spaceBefore) (ha : ¬ρ.spaceAfter) :
    ∃ text, us = [⟨t.kind, text, f t.position⟩] ∧ ρ.Keeps φ t.text text := by
  obtain ⟨-, -, hbefore, hafter, hkeeps⟩ := h
  obtain rfl := not_not.1 (mt hbefore hb)
  obtain rfl := not_not.1 (mt hafter ha)
  exact ⟨_, rfl, hkeeps⟩

theorem Edit.eq_of_fixed (h : Edit φ f ρ t us) (hρ : ρ.Fixed) : us = [t.move f] := by
  obtain rfl | rfl | rfl := hρ
  all_goals
    obtain ⟨text, rfl, rfl⟩ := h.exists_of_not_spaced (by decide) (by decide)
    rfl

theorem Edit.spaces (h : Edit φ f ρ t us) (ht : t.kind = .whitespace) : Spaces us := by
  obtain ⟨hs, hs', -⟩ := h
  exact Spaces.append_iff.2 ⟨hs, Spaces.cons_iff.2 ⟨ht, hs'⟩⟩

variable {c c' : Context} {e : Token → List Token} {z z' : Zone} {xs ys : List Token}

namespace Edits

theorem of_kept (hk : KeptLoose c c' f z xs) :
    Edits c c' φ f (fun u => [u.move f]) z xs where
  edit a _ := .move φ f a.2 a.1
  kept := hk

theorem exists_of_kept (hk : KeptLoose c c' f z (xs ++ t :: ys)) {us : List Token}
    (hi : (xs ++ t :: ys).Pairwise fun t u => t.position < u.position)
    (he : Edit φ f ((z.after c.dialect xs).next c.dialect t).1 t us) :
    ∃ e, Edits c c' φ f e z (xs ++ t :: ys) ∧
      (xs ++ t :: ys).flatMap e = xs.map (Token.move f) ++ (us ++ ys.map (Token.move f)) := by
  obtain ⟨-, hys, hxs⟩ := List.pairwise_append.1 hi
  have hx : ∀ u ∈ xs, u.position ≠ t.position := fun u hu => (hxs u hu t List.mem_cons_self).ne
  have hy : ∀ u ∈ ys, u.position ≠ t.position := fun u hu => ((List.pairwise_cons.1 hys).1 u hu).ne'
  have hne {zs : List Token} (h : ∀ u ∈ zs, u.position ≠ t.position) :
      zs.flatMap (fun u => if u.position = t.position then us else [u.move f]) =
        zs.map (Token.move f) := by
    rw [List.map_eq_flatMap]
    exact List.flatMap_congr fun u hu => if_neg (h u hu)
  refine ⟨fun u => if u.position = t.position then us else [u.move f], ⟨fun a ha => ?_, hk⟩, ?_⟩
  · have hother {zs : List Token} {z : Zone} (h : ∀ u ∈ zs, u.position ≠ t.position)
        (ha : a ∈ z.roles c.dialect zs) :
        Edit φ f a.2 a.1 (if a.1.position = t.position then us else [a.1.move f]) := by
      rw [if_neg (h a.1 (Zone.fst_mem_of_mem_roles ha))]
      exact .move φ f a.2 a.1
    rw [Zone.roles_append, Zone.roles, List.mem_append, List.mem_cons] at ha
    rcases ha with ha | rfl | ha
    · exact hother hx ha
    · rw [if_pos rfl]
      exact he
    · exact hother hy ha
  · rw [List.flatMap_append, List.flatMap_cons, if_pos rfl, hne hx, hne hy]

theorem left (E : Edits c c' φ f e z (xs ++ ys)) : Edits c c' φ f e z xs where
  edit a ha := E.edit a (by rw [Zone.roles_append]; exact List.mem_append_left _ ha)
  kept o us h := E.kept o us (by
    rw [Zone.roles_append]
    exact h.trans (List.prefix_append _ _).isInfix)

theorem right (E : Edits c c' φ f e z (xs ++ ys)) :
    Edits c c' φ f e (z.after c.dialect xs) ys where
  edit a ha := E.edit a (by rw [Zone.roles_append]; exact List.mem_append_right _ ha)
  kept o us h := E.kept o us (by
    rw [Zone.roles_append]
    exact h.trans (List.suffix_append _ _).isInfix)

theorem cons (E : Edits c c' φ f e z (t :: xs)) (h : z.next c.dialect t = (ρ, z')) :
    Edit φ f ρ t (e t) ∧ Edits c c' φ f e z' xs := by
  have hedit := E.edit (t, ρ) (by rw [Zone.roles, h]; exact List.mem_cons_self)
  have htail : Edits c c' φ f e (z.after c.dialect [t]) xs :=
    (show Edits c c' φ f e z ([t] ++ xs) from E).right
  rw [Zone.after, h] at htail
  exact ⟨hedit, htail⟩

theorem cons_of_open (E : Edits c c' φ f e z (t :: xs)) (hz : z.Open) (ht : t.kind ≠ .leftParen)
    (h : Zone.inSelector t = (ρ, z')) : Edit φ f ρ t (e t) ∧ Edits c c' φ f e z' xs :=
  E.cons ((hz.next_eq ht).trans h)

/-- A part of a compound stays alone. -/
theorem cons_of_plain (E : Edits c c' φ f e z (t :: xs)) (hz : z.Open) (ht : t.kind ≠ .leftParen)
    (h : Zone.inSelector t = (.plain, z')) :
    (t :: xs).flatMap e = t.move f :: xs.flatMap e ∧ Edits c c' φ f e z' xs := by
  obtain ⟨hedit, E'⟩ := E.cons_of_open hz ht h
  rw [List.flatMap_cons, hedit.eq_of_fixed (.inl rfl)]
  exact ⟨rfl, E'⟩

theorem exists_role (E : Edits c c' φ f e z xs) (ht : t ∈ xs) :
    ∃ ρ, (t, ρ) ∈ z.roles c.dialect xs ∧ Edit φ f ρ t (e t) := by
  rw [← @Zone.map_fst_roles c.dialect z xs] at ht
  obtain ⟨⟨t, ρ⟩, ha, rfl⟩ := List.mem_map.1 ht
  exact ⟨ρ, ha, E.edit _ ha⟩

theorem of_roles (E : Edits c c' φ f e z xs) (h : ∀ a ∈ z.roles c.dialect xs, a.2 = ρ) :
    ∀ t ∈ xs, Edit φ f ρ t (e t) := by
  intro t ht
  obtain ⟨ρ', hmem, hedit⟩ := E.exists_role ht
  exact h _ hmem ▸ hedit

theorem flatMap_eq (E : Edits c c' φ f e z xs) (h : ∀ a ∈ z.roles c.dialect xs, a.2.Fixed) :
    xs.flatMap e = xs.map (Token.move f) := by
  rw [List.map_eq_flatMap]
  refine List.flatMap_congr fun t ht => ?_
  obtain ⟨ρ, hmem, hedit⟩ := E.exists_role ht
  exact hedit.eq_of_fixed (h _ hmem)

theorem flatMap_spaces (E : Edits c c' φ f e z xs) (hz : z.Open) (hs : Spaces xs) :
    xs.flatMap e = xs.map (Token.move f) :=
  E.flatMap_eq fun a ha => .inl ((hz.spaces hs).2 a ha)

theorem spaces (E : Edits c c' φ f e z xs) (hs : Spaces xs) : Spaces (xs.flatMap e) := by
  intro u hu
  obtain ⟨t, ht, hu⟩ := List.mem_flatMap.1 hu
  obtain ⟨ρ, -, hedit⟩ := E.exists_role ht
  exact hedit.spaces (hs t ht) u hu

theorem bracketed (E : Edits c c' φ f e .brackets (xs ++ t :: ys)) (hs : Spaces xs)
    (ht : t.kind ≠ .rightBracket) :
    ∃ s s', (xs ++ t :: ys).flatMap e = s ++ t.move f :: (s' ++ ys.flatMap e) ∧ Spaces s ∧
      Spaces s' ∧ Edits c c' φ f e .brackets ys := by
  have hbrackets : Zone.brackets.after c.dialect xs = .brackets :=
    (Zone.after_brackets fun u hu => by simp [hs u hu]).1
  have hrest := E.right
  rw [hbrackets] at hrest
  obtain ⟨hedit, E'⟩ := hrest.cons (if_neg ht)
  rw [List.flatMap_append, List.flatMap_cons]
  generalize e t = us at hedit ⊢
  obtain ⟨hs₁, hs₂, -, -, hkeeps⟩ := hedit
  obtain rfl : _ = t.text := hkeeps
  refine ⟨_, _, ?_, Spaces.append_iff.2 ⟨E.left.spaces hs, hs₁⟩, hs₂, E'⟩
  rw [List.append_assoc, List.append_assoc]
  rfl

theorem closing_bracket (E : Edits c c' φ f e .brackets (xs ++ [t])) (hs : Spaces xs)
    (ht : t.kind = .rightBracket) :
    ∃ s, (xs ++ [t]).flatMap e = s ++ [t.move f] ∧ Spaces s := by
  have hbrackets : Zone.brackets.after c.dialect xs = .brackets :=
    (Zone.after_brackets fun u hu => by simp [hs u hu]).1
  have hrest := E.right
  rw [hbrackets] at hrest
  obtain ⟨hedit, -⟩ := hrest.cons (if_pos ht)
  rw [List.flatMap_append, List.flatMap_singleton, hedit.eq_of_fixed (.inl rfl)]
  exact ⟨_, rfl, E.left.spaces hs⟩

end Edits

theorem ReadsAttribute.edit {a : Attribute} {ms : List Mention} (h : ReadsAttribute xs a ms)
    (E : Edits c c' φ f e .brackets xs) :
    ReadsAttribute (xs.flatMap e) a (ms.map (Mention.move f)) := by
  cases h with
  | @presence s₁ s₂ name close hs₁ hn hne hs₂ hc =>
    obtain ⟨s, s', hxs, hs, hs', E₁⟩ := E.bracketed hs₁ (by simp [hn])
    obtain ⟨v, hclose, hv⟩ := E₁.closing_bracket hs₂ hc
    rw [hxs, hclose, ← List.append_assoc s']
    exact @ReadsAttribute.presence _ _ (name.move f) (close.move f) hs hn hne
      (Spaces.append_iff.2 ⟨hs', hv⟩) hc
  | @comparison s₁ s₂ s₃ s₄ ys name operator value close op m ns hs₁ hn hne hs₂ ho hop hs₃ hv hs₄ hm
      hc =>
    have hvalue : value.kind ≠ .rightBracket := by rcases hv with hv | hv <;> simp [hv]
    obtain ⟨s, s', hxs, hs, hs', E₁⟩ := E.bracketed hs₁ (by simp [hn])
    obtain ⟨u, u', hoperator, hu, hu', E₂⟩ := E₁.bracketed hs₂ (by simp [ho])
    obtain ⟨v, v', hval, hv₁, hv₂, E₃⟩ := E₂.bracketed hs₃ hvalue
    have hspaces {s s' : List Token} (hs : Spaces s) (hs' : Spaces s') : Spaces (s ++ s') :=
      Spaces.append_iff.2 ⟨hs, hs'⟩
    rw [hxs, hoperator, hval]
    cases hm with
    | none =>
      obtain ⟨w, hclose, hw⟩ := E₃.closing_bracket hs₄ hc
      have hread := @ReadsAttribute.comparison s (s' ++ u) (u' ++ v) (v' ++ w) []
        (name.move f) (operator.move f) (value.move f) (close.move f) op none [] hs hn hne
        (hspaces hs' hu) ho hop (hspaces hu' hv₁) hv (hspaces hv₂ hw) .none hc
      rw [List.nil_append, hclose]
      simpa [Mention.move] using hread
    | @some t s₅ ht hs₅ =>
      rw [List.cons_append] at E₃ ⊢
      obtain ⟨w, w', hmodifier, hw, hw', E₄⟩ := E₃.bracketed hs₄ (by simp [ht])
      obtain ⟨x, hclose, hx⟩ := E₄.closing_bracket hs₅ hc
      have hread := @ReadsAttribute.comparison s (s' ++ u) (u' ++ v) (v' ++ w) _
        (name.move f) (operator.move f) (value.move f) (close.move f) op _ _ hs hn hne
        (hspaces hs' hu) ho hop (hspaces hu' hv₁) hv (hspaces hv₂ hw)
        (.some (t := t.move f) ht (hspaces hw' hx)) hc
      rw [hmodifier, hclose]
      simpa [Mention.move] using hread

theorem ReadsLiteral.edit {kind : Token.Kind} (h : ReadsLiteral kind xs t) (hk : kind ≠ .rightParen)
    (E : Edits c c' φ f e .literal xs) : ReadsLiteral kind (xs.flatMap e) (t.move f) := by
  rw [E.flatMap_eq fun a ha => .inr (.inl ((h.after hk).2 a ha))]
  exact h.move

/-- Tokens of a formula with other letter case say the same text but for its letter case. -/
theorem exists_formulaTexts?_edit {text : List Char} (hx : formulaTexts? xs = some text)
    (he : ∀ t ∈ xs, Edit φ f .formula t (e t)) :
    ∃ text', formulaTexts? (xs.flatMap e) = some text' ∧
      text'.map Char.toLower = text.map Char.toLower := by
  induction xs generalizing text with
  | nil => exact ⟨text, hx, rfl⟩
  | cons t xs ih =>
    obtain ⟨cs, rest, hcs, hrest, rfl⟩ := exists_of_formulaTexts?_cons hx
    obtain ⟨ht, hxs⟩ := List.forall_mem_cons.1 he
    obtain ⟨rest', hrest', hlower⟩ := ih hrest hxs
    obtain ⟨s, het, hs⟩ := ht.exists_of_not_spaced (by decide) (by decide)
    obtain ⟨cs', hcs', hlower'⟩ : ∃ cs', formulaText? ⟨t.kind, s, f t.position⟩ = some cs' ∧
        cs'.map Char.toLower = cs.map Char.toLower := by
      have hfold : s.toList.map Char.toLower = t.text.toList.map Char.toLower := by
        simpa [fold] using congrArg String.toList (show fold s = fold t.text from hs)
      unfold formulaText? at hcs ⊢
      cases hk : t.kind with
      | ident | number | delim | combinator =>
        simp only [hk, Option.some.injEq] at hcs
        exact ⟨_, rfl, hcs ▸ hfold⟩
      | whitespace =>
        simp only [hk] at hcs
        exact ⟨cs, hcs, rfl⟩
      | _ => simp [hk] at hcs
    refine ⟨cs' ++ rest', ?_, by simp [hlower, hlower']⟩
    rw [List.flatMap_cons, het, List.singleton_append, formulaTexts?, hcs', hrest']
    rfl

theorem ReadsFormula.edit {a : Formula} (h : ReadsFormula xs a)
    (he : ∀ t ∈ xs, Edit φ f .formula t (e t)) : ReadsFormula (xs.flatMap e) a := by
  obtain ⟨text, hx, ha⟩ := h
  obtain ⟨text', hx', hlower⟩ := exists_formulaTexts?_edit hx he
  refine ⟨text', hx', ?_⟩
  rw [Formula.read?_trim, Formula.read?_eq_of_toLower hlower, ← Formula.read?_trim, ha]

end

end Parse
end CssSelector
