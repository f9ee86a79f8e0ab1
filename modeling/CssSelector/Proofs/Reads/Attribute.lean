import CssSelector.Proofs.Reads

set_option autoImplicit false

namespace CssSelector.Parse

open CssSelector.Parse.Parser

section
variable {c : Context} {ts us : List Token} {ws : List Warning}

theorem attributeValue_sound {v : String} (h : attributeValue.run c ts = ⟨.ok v, ws, us⟩) :
    ∃ t : Token, ts = t :: us ∧ (t.kind = .ident ∨ t.kind = .string) ∧ v = t.text ∧ ws = [] := by
  rw [attributeValue, run_bind_front] at h
  cases ts with
  | nil => simp at h
  | cons t ts =>
    by_cases hk : t.kind = .ident ∨ t.kind = .string
    · simp only [Context.front_cons, hk, if_true, run_bind_skip, run_pure] at h
      cases h
      exact ⟨t, rfl, hk, rfl, rfl⟩
    · simp [hk] at h

theorem run_attributeValue {t : Token} (h : t.kind = .ident ∨ t.kind = .string) :
    attributeValue.run c (t :: us) = ⟨.ok t.text, [], us⟩ := by
  rw [attributeValue, run_bind_front, Context.front_cons, if_pos h]
  rfl

theorem attributeModifier_sound {m : Option String}
    (h : attributeModifier.run c ts = ⟨.ok m, ws, us⟩) :
    ∃ xs ms, ts = xs ++ us ∧ ReadsModifier xs m ms ∧ c.dialect.Passes ms ws := by
  rw [attributeModifier, run_bind_front] at h
  by_cases hk : (c.front ts).kind = .ident
  · cases ts with
    | nil => simp at hk
    | cons t ts =>
      rw [Context.front_cons] at hk
      simp only [Context.front_cons, hk, if_true, run_bind_skip, List.drop_one,
        List.tail_cons] at h
      replace h := exists_of_run_bind_judge h
      obtain ⟨ws₁, ws₂, rfl, hp, h⟩ := h
      replace h := exists_of_run_bind_skipSpace h
      obtain ⟨s, vs, rfl, hs, -, h⟩ := h
      cases h
      exact ⟨t :: s, _, rfl, .some hk hs, by simpa using hp⟩
  · simp only [hk, if_false, run_pure] at h
    cases h
    exact ⟨[], [], rfl, .none, .nil⟩

theorem comparison_sound {name : String} {t : Token} {i : Item}
    (h : (comparison name t).run c ts = ⟨.ok i, ws, us⟩) :
    ∃ (op : AttributeOperator) (s₁ s₂ xs : List Token) (value close : Token)
      (m : Option String) (ms : List Mention), AttributeOperator.ofSymbol? t.text = some op ∧
      ts = s₁ ++ value :: (s₂ ++ (xs ++ close :: us)) ∧ Spaces s₁ ∧
      (value.kind = .ident ∨ value.kind = .string) ∧ Spaces s₂ ∧ ReadsModifier xs m ms ∧
      close.kind = .rightBracket ∧ name ≠ "" ∧
      i = .attribute ⟨name, some op, some value.text, m⟩ ∧
      c.dialect.Passes (⟨.operator op, t.position⟩ :: ms) ws := by
  unfold comparison at h
  cases ho : AttributeOperator.ofSymbol? t.text with
  | none => simp [ho] at h
  | some op =>
    rw [ho] at h
    replace h := exists_of_run_bind_judge h
    obtain ⟨ws₁, ws₂, rfl, hp, h⟩ := h
    replace h := exists_of_run_bind_skipSpace h
    obtain ⟨s₁, ts, rfl, hs₁, -, h⟩ := h
    rw [run_bind_eq_ok] at h
    obtain ⟨_, _, _, _, k, h, rfl⟩ := h
    obtain ⟨value, rfl, hv, rfl, rfl⟩ := attributeValue_sound k
    replace h := exists_of_run_bind_skipSpace h
    obtain ⟨s₂, ts, rfl, hs₂, -, h⟩ := h
    rw [run_bind_eq_ok] at h
    obtain ⟨m, ws₃, _, ws₄, k, h, rfl⟩ := h
    obtain ⟨xs, ms, rfl, hm, hq⟩ := attributeModifier_sound k
    rw [discard_bind] at h
    replace h := exists_of_run_bind_expect (by decide) h
    obtain ⟨close, ts, rfl, hc, h⟩ := h
    rw [run_built_eq_ok] at h
    obtain ⟨hb, rfl, rfl⟩ := h
    obtain ⟨hne, rfl⟩ := EmptyName.map_check_eq_ok.1 hb
    exact ⟨op, s₁, s₂, xs, value, close, m, ms, rfl, rfl, hs₁, hv, hs₂, hm, hc, hne, rfl,
      by simpa using hp.cons hq⟩

theorem attributeSelector_sound {i : Item}
    (h : attributeSelector.run c ts = ⟨.ok i, ws, us⟩) :
    ∃ xs a ms, ts = xs ++ us ∧ i = .attribute a ∧ ReadsAttribute xs a ms ∧
      c.dialect.Passes ms ws := by
  replace h := exists_of_run_bind_skipSpace h
  obtain ⟨s₁, ts, rfl, hs₁, -, h⟩ := h
  replace h := exists_of_run_bind_expect (by decide) h
  obtain ⟨name, ts, rfl, hn, h⟩ := h
  replace h := exists_of_run_bind_skipSpace h
  obtain ⟨s₂, ts, rfl, hs₂, -, h⟩ := h
  rw [run_bind_front] at h
  cases ts with
  | nil => simp at h
  | cons t ts =>
    rw [Context.front_cons] at h
    split at h
    next hk =>
      rw [run_bind_skip, run_built_eq_ok] at h
      obtain ⟨hb, rfl, rfl⟩ := h
      obtain ⟨hne, rfl⟩ := EmptyName.map_check_eq_ok.1 hb
      exact ⟨s₁ ++ name :: (s₂ ++ [t]), _, [], by simp, rfl, .presence hs₁ hn hne hs₂ hk, .nil⟩
    next hk =>
      rw [run_bind_skip] at h
      replace h := comparison_sound h
      obtain ⟨op, s₃, s₄, xs, value, close, m, ms, ho, hts, hs₃, hv, hs₄, hm, hc, hne, rfl, hp⟩ := h
      refine ⟨_, _, _, ?_, rfl, .comparison hs₁ hn hne hs₂ hk ho hs₃ hv hs₄ hm hc, hp⟩
      rw [List.drop_one, List.tail_cons] at hts
      simp [hts]
    next => simp at h

theorem ReadsModifier.head_append {xs : List Token} {m : Option String} {ms : List Mention}
    {close : Token} (h : ReadsModifier xs m ms) (hc : close.kind = .rightBracket) :
    ∀ t ∈ (xs ++ close :: us).head?, t.kind ≠ .whitespace := by
  cases h with
  | none => simp [hc]
  | some hk hs => simp [hk]

theorem run_attributeModifier {xs : List Token} {m : Option String} {ms : List Mention}
    {close : Token} (h : ReadsModifier xs m ms) (hc : close.kind = .rightBracket)
    (hp : c.dialect.Passes ms ws) :
    attributeModifier.run c (xs ++ close :: us) = ⟨.ok m, ws, close :: us⟩ := by
  rw [attributeModifier, run_bind_front]
  cases h with
  | none =>
    rw [Dialect.Passes.nil_iff] at hp
    simp [hc, hp]
  | @some t s hk hs =>
    simp only [List.cons_append, Context.front_cons, hk, if_true, run_bind_skip, List.drop_one,
      List.tail_cons]
    rw [← List.append_nil ws]
    refine run_bind_judge hp ?_
    rw [run_bind_skipSpace_append hs (by simp [hc]), run_pure]

theorem run_attributeSelector {xs : List Token} {a : Attribute} {ms : List Mention}
    (h : ReadsAttribute xs a ms) (hp : c.dialect.Passes ms ws) :
    attributeSelector.run c (xs ++ us) = ⟨.ok (.attribute a), ws, us⟩ := by
  rw [attributeSelector]
  cases h with
  | @presence s₁ s₂ name close hs₁ hn hne hs₂ hc =>
    rw [Dialect.Passes.nil_iff] at hp
    simp only [List.append_assoc, List.cons_append, List.nil_append]
    rw [run_bind_skipSpace_append hs₁ (by simp [hn]), run_bind_expect_cons hn,
      run_bind_skipSpace_append hs₂ (by simp [hc]), run_bind_front]
    simp only [Context.front_cons, hc, run_bind_skip, List.drop_one, List.tail_cons]
    rw [hp]
    exact run_built_check hne
  | @comparison s₁ s₂ s₃ s₄ xs name operator value close op m ms hs₁ hn hne hs₂ ho hop hs₃ hv hs₄
      hm hc =>
    obtain ⟨ws₁, ws₂, rfl, hp, hq⟩ := hp.of_cons
    have hv' : value.kind ≠ .whitespace := by
      rcases hv with hv | hv <;> simp [hv]
    simp only [List.append_assoc, List.cons_append, List.nil_append]
    rw [run_bind_skipSpace_append hs₁ (by simp [hn]), run_bind_expect_cons hn,
      run_bind_skipSpace_append hs₂ (by simp [ho]), run_bind_front]
    simp only [Context.front_cons, ho, run_bind_skip, List.drop_one, List.tail_cons, comparison,
      hop]
    refine run_bind_judge hp ?_
    rw [run_bind_skipSpace_append hs₃ (by simp [hv'])]
    rw [← List.nil_append ws₂]
    refine run_bind_of_ok (run_attributeValue hv) ?_
    rw [run_bind_skipSpace_append hs₄ (hm.head_append hc), ← List.append_nil ws₂]
    refine run_bind_of_ok (run_attributeModifier hm hc hq) ?_
    rw [discard_bind, run_bind_expect_cons hc]
    exact run_built_check hne

end

end CssSelector.Parse
