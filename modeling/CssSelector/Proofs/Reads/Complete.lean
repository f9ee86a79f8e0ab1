import CssSelector.Proofs.Reads.Sound

/-!
Whatever reads as a phrase is parsed as that phrase, if what comes after it cannot be taken for a
part of it (`Reads.parsed`). Arguments are parsed deep enough where the depth exceeds the number of
opening parentheses.
-/

set_option autoImplicit false

namespace CssSelector
namespace Parse

open CssSelector.Parse.Parser

def EndsCompound (us : List Token) : Prop :=
  ∀ t ∈ us.head?, t.kind.itemStart? = none ∧ t.kind ≠ .leftParen

def EndsRule (us : List Token) : Prop := ∀ t ∈ us.head?, t.kind = .comma ∨ t.kind = .rightParen

def EndsSelector (us : List Token) : Prop := ∀ t ∈ us.head?, t.kind = .rightParen

theorem EndsRule.endsCompound {us : List Token} (h : EndsRule us) : EndsCompound us := by
  intro t ht
  rcases h t ht with hk | hk <;> simp [hk, Token.Kind.itemStart?]

theorem EndsSelector.endsRule {us : List Token} (h : EndsSelector us) : EndsRule us :=
  fun t ht => .inr (h t ht)

theorem EndsCompound.append_of_head {xs us : List Token}
    (hx : ∀ t ∈ xs.head?, t.kind = .whitespace ∨ t.kind = .combinator) (hu : EndsCompound us) :
    EndsCompound (xs ++ us) := by
  cases xs with
  | nil => exact hu
  | cons x xs =>
    intro t ht
    cases ht
    rcases hx x rfl with hk | hk <;> simp [hk, Token.Kind.itemStart?]

section
variable {c : Context} {nested : Parser Selector} {xs us : List Token} {ms : List Mention}
  {ws ws' : List Warning}

theorem run_literal {kind : Token.Kind} (hk : kind ≠ .whitespace) (what : Expectation)
    {t : Token} (h : ReadsLiteral kind xs t) (hu : ∀ t ∈ us.head?, t.kind ≠ .whitespace) :
    (literal kind what).run c (xs ++ us) = ⟨.ok t, [], us⟩ := by
  cases h with
  | @mk s₁ s₂ _ hs₁ ht hs₂ =>
    rw [List.append_assoc, List.cons_append, literal,
      run_bind_skipSpace_append hs₁ (by simp [ht, hk]), run_bind_expect_cons ht,
      run_bind_skipSpace_append hs₂ hu, run_pure]

theorem run_number {t : Token} {x : Binary64} (h : ReadsLiteral .number xs t)
    (hx : Binary64.ofNumeral? t.text.toList = some x)
    (hu : ∀ t ∈ us.head?, t.kind ≠ .whitespace) :
    number.run c (xs ++ us) = ⟨.ok x, [], us⟩ := by
  refine run_bind_of_ok (run_literal (by decide) .number h hu) ?_
  simp only [hx, run_pure]

theorem run_knownArgument {category : Category} {name : String} {σ : Signature}
    {g : ArgumentGrammar} (hg : σ.argument = some g) {o t : Token} (ho : o.kind = .leftParen)
    (ht : t.kind = .rightParen) {a : Argument}
    (h : (argumentBody nested o.position g).run c (xs ++ t :: us) = ⟨.ok a, ws, t :: us⟩) :
    (knownArgument nested category name σ).run c (o :: (xs ++ t :: us)) =
      ⟨.ok (some a), ws, us⟩ := by
  have hne : g ≠ .noArgument := by
    rintro rfl
    simp [argumentBody] at h
  rw [knownArgument, run_bind_front, Context.front_cons, if_pos ho, run_bind_skip, List.drop_one,
    List.tail_cons, hg]
  rw [← List.append_nil ws]
  cases g with
  | noArgument => contradiction
  | _ =>
    refine run_bind_of_ok h ?_
    rw [discard_bind, run_bind_expect_cons ht, run_pure]

theorem run_knownArgument_bare {category : Category} {name : String} {σ : Signature}
    (hb : σ.bare) (hu : ∀ t ∈ us.head?, t.kind ≠ .leftParen) :
    (knownArgument nested category name σ).run c us = ⟨.ok none, [], us⟩ := by
  have hf : (c.front us).kind ≠ .leftParen := by
    cases us with
    | nil => simp
    | cons t us => exact hu t rfl
  rw [knownArgument, run_bind_front, if_neg hf, if_pos hb, run_pure]

theorem run_pseudoArgument_known {category : Category} {t : Token} {σ : Signature}
    (hσ : c.dialect.signature? category t.text = some σ)
    (hp : c.dialect.Passes [⟨.pseudo category t.text, t.position⟩] ws) {s : Step (Option Argument)}
    (h : (knownArgument nested category t.text σ).run c xs = s) :
    (pseudoArgument nested category t).run c xs = { s with warnings := ws ++ s.warnings } := by
  have hr : c.dialect.recognises (.pseudo category t.text) := by
    simp [Dialect.recognises, hσ]
  rw [pseudoArgument, run_bind_context]
  simp only [hσ, h, Dialect.Passes.eq_nil_of_recognises hr hp, List.nil_append]

theorem run_pseudoArgument_unknown {category : Category} {t : Token}
    (hσ : c.dialect.signature? category t.text = none)
    (hp : c.dialect.Passes [⟨.pseudo category t.text, t.position⟩] ws) {a : Option Argument}
    (h : looseArgument.run c xs = ⟨.ok a, ws', us⟩) :
    (pseudoArgument nested category t).run c xs = ⟨.ok a, ws ++ ws', us⟩ := by
  rw [pseudoArgument, run_bind_context]
  simp only [hσ]
  exact run_bind_judge hp h

theorem run_pseudo {category : Category} {t : Token} (ht : t.kind = .ident) (hne : t.text ≠ "")
    {a : Option Argument} (h : (pseudoArgument nested category t).run c xs = ⟨.ok a, ws, us⟩) :
    (pseudo nested category).run c (t :: xs) = ⟨.ok (.pseudo category t.text a), ws, us⟩ := by
  rw [pseudo, run_bind_expect_cons ht, ← List.append_nil ws]
  refine run_bind_of_ok h ?_
  exact run_built_check hne

theorem run_items {previous : Option Item} {t : Token} {k : ItemStart} {i : Item} {is : List Item}
    {vs : List Token} (hk : t.kind = k.kind) (hf : k.mayFollow previous)
    (hi : (simple nested t k).run c xs = ⟨.ok i, ws, us⟩)
    (h : manyAfter (itemAt nested) c (some i) us = ⟨.ok is, ws', vs⟩) :
    manyAfter (itemAt nested) c previous (t :: xs) = ⟨.ok (i :: is), ws ++ ws', vs⟩ := by
  have hp : itemAt nested previous t = some do
      checkOrder previous t k
      return some (← simple nested t k) := by
    rw [itemAt, Token.Kind.itemStart?_eq_some.2 hk]
    rfl
  refine manyAfter_step hp ?_ h
  rw [← List.nil_append ws]
  exact run_bind_of_ok (run_checkOrder_eq_ok.2 ⟨hf, rfl, rfl⟩) (run_return_of_ok hi)

theorem run_noItems (previous : Option Item) (hu : EndsCompound us) :
    manyAfter (itemAt nested) c previous us = ⟨.ok [], [], us⟩ := by
  cases us with
  | nil => exact manyAfter_nil
  | cons t us =>
    refine manyAfter_stop ?_
    rw [itemAt, (hu t rfl).1]
    rfl

theorem run_compound {is : List Item} (hne : is ≠ [])
    (h : manyAfter (itemAt nested) c none xs = ⟨.ok is, ws, us⟩) :
    (compound nested).run c xs = ⟨.ok is, ws, us⟩ := by
  rw [compound, ← List.append_nil ws]
  refine run_bind_of_ok h ?_
  rw [if_neg (by simpa using hne), run_pure]

theorem run_link {k : Combinator} {n : Nat} {s : List Token} (hs : Spaces s) {is : List Item}
    (hx : ∀ t ∈ xs.head?, t.kind ≠ .whitespace) (hp : c.dialect.Passes [⟨.combinator k, n⟩] ws)
    (h : (compound nested).run c xs = ⟨.ok is, ws', us⟩) :
    (link nested k n).run c (s ++ xs) = ⟨.ok (.combinator k :: is), ws ++ ws', us⟩ := by
  refine run_bind_judge hp ?_
  rw [run_bind_skipSpace_append hs hx]
  exact run_return_of_ok h

theorem run_combinator {k : Combinator} {s₁ s₂ : List Token} {t : Token} (hs₁ : Spaces s₁)
    (ht : t.kind = .combinator) (hk : Combinator.ofSymbol? t.text = some k) (hs₂ : Spaces s₂)
    {is : List Item} (hx : ∀ t ∈ xs.head?, t.kind ≠ .whitespace)
    (hp : c.dialect.Passes [⟨.combinator k, t.position⟩] ws)
    (h : (compound nested).run c xs = ⟨.ok is, ws', us⟩) :
    ∃ u vs p, s₁ ++ t :: (s₂ ++ xs) = u :: vs ∧ linkAt nested u = some p ∧
      p.run c vs = ⟨.ok (some (.combinator k :: is)), ws ++ ws', us⟩ := by
  have hl : (explicitLink nested t).run c (s₂ ++ xs) =
      ⟨.ok (.combinator k :: is), ws ++ ws', us⟩ := by
    rw [explicitLink, hk]
    exact run_link hs₂ hx hp h
  have hb := run_return_of_ok (f := some) hl
  cases s₁ with
  | nil => exact ⟨t, _, _, rfl, by rw [linkAt, ht], hb⟩
  | cons u s =>
    obtain ⟨hu, hs⟩ := Spaces.cons_iff.1 hs₁
    refine ⟨u, _, _, rfl, by rw [linkAt, hu], ?_⟩
    rw [spacedLink, List.append_eq, run_bind_skipSpace_append hs (by simp [ht]), run_bind_front,
      Context.front_cons]
    simp only [ht]
    rw [run_bind_skip, List.drop_one, List.tail_cons]
    exact hb

theorem run_descendant {s ys : List Token} (hs : Spaces s) (hne : s ≠ []) {t : Token}
    {k : ItemStart} (hx : t.kind = k.kind) {is : List Item}
    (hp : c.dialect.Passes [⟨.combinator .descendant, t.position⟩] ws)
    (h : (compound nested).run c (t :: ys) = ⟨.ok is, ws', us⟩) :
    ∃ u vs p, s ++ t :: ys = u :: vs ∧ linkAt nested u = some p ∧
      p.run c vs = ⟨.ok (some (.combinator .descendant :: is)), ws ++ ws', us⟩ := by
  have ht : t.kind ≠ .whitespace := hx ▸ k.kind_ne_whitespace
  cases s with
  | nil => contradiction
  | cons u s =>
    obtain ⟨hu, hs⟩ := Spaces.cons_iff.1 hs
    refine ⟨u, _, _, rfl, by rw [linkAt, hu], ?_⟩
    rw [spacedLink, List.append_eq, run_bind_skipSpace_append hs (by simp [ht]), run_bind_front,
      Context.front_cons]
    have hl : (link nested .descendant t.position).run c (t :: ys) =
        ⟨.ok (.combinator .descendant :: is), ws ++ ws', us⟩ :=
      run_link (s := []) Spaces.nil (by simp [ht]) hp h
    have hb := run_return_of_ok (f := some) hl
    rcases k with _ | _ | _ | _ | _ | ⟨_ | _⟩
    all_goals
      rw [ItemStart.kind] at hx
      simp only [hx]
      exact hb

theorem run_noLinks {previous : Option (List Item)} {s : List Token} (hs : Spaces s)
    (hu : EndsRule us) :
    manyAfter (fun _ => linkAt nested) c previous (s ++ us) = ⟨.ok [], [], us⟩ := by
  cases s with
  | nil =>
    cases us with
    | nil => exact manyAfter_nil
    | cons t us =>
      refine manyAfter_stop ?_
      rcases hu t rfl with hk | hk <;> rw [linkAt, hk]
  | cons w s =>
    obtain ⟨hw, hs⟩ := Spaces.cons_iff.1 hs
    have hsp : ∀ t ∈ us.head?, t.kind ≠ .whitespace := by
      intro t ht
      rcases hu t ht with hk | hk <;> simp [hk]
    refine manyAfter_last (p := spacedLink nested) (by rw [linkAt, hw]) ?_
    rw [spacedLink, List.append_eq, run_bind_skipSpace_append hs hsp, run_bind_front]
    cases us with
    | nil => rfl
    | cons t us =>
      rw [Context.front_cons]
      rcases hu t rfl with hk | hk <;> simp only [hk, run_pure]

theorem run_rule {ys : List Token} {is : List Item} {iss : List (List Item)}
    (hi : (compound nested).run c xs = ⟨.ok is, ws, ys⟩)
    (h : manyAfter (fun _ => linkAt nested) c none ys = ⟨.ok iss, ws', us⟩) :
    (rule nested).run c xs = ⟨.ok ⟨is ++ iss.flatten⟩, ws ++ ws', us⟩ := by
  exact run_bind_of_ok hi (run_return_of_ok h)

theorem run_spacedRule {s : List Token} {r : Rule} (hs : Spaces s)
    (hx : ∀ t ∈ xs.head?, t.kind ≠ .whitespace)
    (h : (rule nested).run c xs = ⟨.ok r, ws, us⟩) :
    (spacedRule nested).run c (s ++ xs) = ⟨.ok r, ws, us⟩ := by
  rw [spacedRule, run_bind_skipSpace_append hs hx, h]

theorem run_otherRules {previous : Option Rule} {t : Token} (ht : t.kind = .comma) {r : Rule}
    {rs : List Rule} {vs : List Token}
    (hr : (spacedRule nested).run c xs = ⟨.ok r, ws, us⟩)
    (h : manyAfter (fun _ => ruleAt nested) c (some r) us = ⟨.ok rs, ws', vs⟩) :
    manyAfter (fun _ => ruleAt nested) c previous (t :: xs) = ⟨.ok (r :: rs), ws ++ ws', vs⟩ := by
  exact manyAfter_step (by rw [ruleAt, if_pos ht]) (run_return_of_ok hr) h

theorem run_selectorTo {depth : Nat} {r : Rule} {rs : List Rule} {vs : List Token}
    (hr : (spacedRule (selectorTo depth)).run c xs = ⟨.ok r, ws, us⟩)
    (h : manyAfter (fun _ => ruleAt (selectorTo depth)) c none us = ⟨.ok rs, ws', vs⟩) :
    (selectorTo (depth + 1)).run c xs = ⟨.ok ⟨r :: rs⟩, ws ++ ws', vs⟩ :=
  run_return_of_ok (run_bind_of_ok hr (run_return_of_ok h))

theorem run_noRules {previous : Option Rule} (hu : EndsSelector us) :
    manyAfter (fun _ => ruleAt nested) c previous us = ⟨.ok [], [], us⟩ := by
  cases us with
  | nil => exact manyAfter_nil
  | cons t us =>
    refine manyAfter_stop ?_
    rw [ruleAt, if_neg]
    simp [hu t rfl]

end

/-- What the parsers make of the tokens of a phrase whatever comes next, where arguments are parsed
to the given depth. -/
def Parsed (c : Context) (depth : Nat) (xs : List Token) (ws : List Warning) : Phrase → Prop
  | .selector s => xs.countP opensArgument < depth → ∀ us, EndsSelector us →
    (selectorTo depth).run c (xs ++ us) = ⟨.ok s, ws, us⟩
  | .rules rs => xs.countP opensArgument ≤ depth → ∀ us, EndsSelector us → ∀ previous,
    manyAfter (fun _ => ruleAt (selectorTo depth)) c previous (xs ++ us) = ⟨.ok rs, ws, us⟩
  | .rule r => xs.countP opensArgument ≤ depth → ∀ us, EndsRule us →
    (rule (selectorTo depth)).run c (xs ++ us) = ⟨.ok r, ws, us⟩
  | .link is => xs.countP opensArgument ≤ depth → ∀ us, EndsCompound us →
    ∃ t ts p, xs ++ us = t :: ts ∧ linkAt (selectorTo depth) t = some p ∧
      p.run c ts = ⟨.ok (some is), ws, us⟩
  | .links is => xs.countP opensArgument ≤ depth → ∀ s us, Spaces s → EndsRule us → ∀ previous,
    ∃ iss, iss.flatten = is ∧ manyAfter (fun _ => linkAt (selectorTo depth)) c previous
      (xs ++ (s ++ us)) = ⟨.ok iss, ws, us⟩
  | .compound is => xs.countP opensArgument ≤ depth → ∀ us, EndsCompound us →
    (compound (selectorTo depth)).run c (xs ++ us) = ⟨.ok is, ws, us⟩
  | .items previous is => xs.countP opensArgument ≤ depth → ∀ us, EndsCompound us →
    manyAfter (itemAt (selectorTo depth)) c previous (xs ++ us) = ⟨.ok is, ws, us⟩
  | .item i => xs.countP opensArgument ≤ depth → ∀ us, (∀ t ∈ us.head?, t.kind ≠ .leftParen) →
    ∃ t ts k, xs ++ us = t :: ts ∧ t.kind = k.kind ∧ i.start? = some k ∧
      (simple (selectorTo depth) t k).run c ts = ⟨.ok i, ws, us⟩
  | .argument category name a => xs.countP opensArgument ≤ depth →
    ∀ us, (∀ t ∈ us.head?, t.kind ≠ .leftParen) → ∀ t : Token, t.text = name → ∀ ws₁,
      c.dialect.Passes [⟨.pseudo category name, t.position⟩] ws₁ →
      (pseudoArgument (selectorTo depth) category t).run c (xs ++ us) = ⟨.ok a, ws₁ ++ ws, us⟩
  | .body g a => xs.countP opensArgument < depth → ∀ start t us, t.kind = .rightParen →
    (argumentBody (selectorTo depth) start g).run c (xs ++ t :: us) = ⟨.ok a, ws, t :: us⟩

section
variable {c : Context} {xs us : List Token} {ms : List Mention} {ws : List Warning}

theorem Reads.rule_head {r : Rule} (h : Reads c xs (.rule r) ms) :
    ∃ t ys, xs = t :: ys ∧ t.kind ≠ .whitespace := by
  cases h with
  | rule hx _ _ =>
    obtain ⟨t, ys, k, rfl, hk⟩ := hx.compound_head
    exact ⟨t, _, rfl, hk ▸ k.kind_ne_whitespace⟩

theorem Reads.items_head {previous : Option Item} {is : List Item}
    (h : Reads c xs (.items previous is) ms) : ∀ t ∈ xs.head?, t.kind ≠ .leftParen := by
  cases h with
  | noItems => simp
  | items _ _ hi _ =>
    obtain ⟨t, ys, k, rfl, -, hk⟩ := hi.item_head
    intro u hu
    cases hu
    exact hk ▸ k.kind_ne_leftParen

theorem Reads.links_head {is : List Item} (h : Reads c xs (.links is) ms) :
    ∀ t ∈ xs.head?, t.kind = .whitespace ∨ t.kind = .combinator := by
  cases h with
  | noLinks => simp
  | links hl _ =>
    cases hl with
    | @descendant s _ _ _ hs hne _ =>
      cases s with
      | nil => contradiction
      | cons u s => simpa using .inl (Spaces.cons_iff.1 hs).1
    | @combinator t _ s _ _ _ _ hs ht _ _ _ =>
      cases s with
      | nil => simpa using .inr ht
      | cons u s => simpa using .inl (Spaces.cons_iff.1 hs).1

theorem Reads.links_append {s : List Token} {is : List Item} (h : Reads c xs (.links is) ms)
    (hs : Spaces s) (hu : EndsRule us) : EndsCompound (xs ++ (s ++ us)) := by
  refine .append_of_head h.links_head (.append_of_head ?_ hu.endsCompound)
  exact fun t ht => .inl (hs t (List.mem_of_mem_head? ht))

theorem Reads.rules_append {rs : List Rule} (h : Reads c xs (.rules rs) ms) (hu : EndsSelector us) :
    EndsRule (xs ++ us) := by
  cases h with
  | noRules => exact hu.endsRule
  | rules ht _ _ _ => simpa [EndsRule] using .inl ht

theorem forall_head?_append {P : Token → Prop} (hx : ∀ t ∈ xs.head?, P t)
    (hu : ∀ t ∈ us.head?, P t) : ∀ t ∈ (xs ++ us).head?, P t := by
  cases xs with
  | nil => exact hu
  | cons x xs => exact hx

theorem Reads.parsed {p : Phrase} (h : Reads c xs p ms) (hp : c.dialect.Passes ms ws)
    (depth : Nat) : Parsed c depth xs ws p := by
  induction h generalizing ws depth with
  | @selector s xs ys r rs ms ns hs hx hy ihx ihy =>
    obtain ⟨ws₁, ws₂, rfl, hp, hq⟩ := hp.of_append
    intro hd us hu
    cases depth with
    | zero => omega
    | succ depth =>
      simp only [List.countP_append] at hd
      have hr := ihx hp depth (by omega) (ys ++ us) (hy.rules_append hu)
      have hrs := ihy hq depth (by omega) us hu none
      obtain ⟨t, zs, rfl, ht⟩ := hx.rule_head
      rw [List.append_assoc, List.append_assoc]
      exact run_selectorTo (run_spacedRule hs (by simpa using ht) hr) hrs
  | noRules =>
    obtain rfl := Dialect.Passes.nil_iff.1 hp
    intro _ us hu previous
    exact run_noRules hu
  | @rules t s xs ys r rs ms ns ht hs hx hy ihx ihy =>
    obtain ⟨ws₁, ws₂, rfl, hp, hq⟩ := hp.of_append
    intro hd us hu previous
    simp only [List.countP_cons, List.countP_append] at hd
    have hr := ihx hp depth (by omega) (ys ++ us) (hy.rules_append hu)
    have hrs := ihy hq depth (by omega) us hu (some r)
    obtain ⟨u, zs, rfl, hne⟩ := hx.rule_head
    rw [List.cons_append, List.append_assoc, List.append_assoc]
    exact run_otherRules ht (run_spacedRule hs (by simpa using hne) hr) hrs
  | @rule s xs ys is js ms ns hx hy hs ihx ihy =>
    obtain ⟨ws₁, ws₂, rfl, hp, hq⟩ := hp.of_append
    intro hd us hu
    simp only [List.countP_append] at hd
    have he : EndsCompound (ys ++ (s ++ us)) := hy.links_append hs hu
    have hc := ihx hp depth (by omega) _ he
    obtain ⟨iss, rfl, hl⟩ := ihy hq depth (by omega) s us hs hu none
    have hr := run_rule hc hl
    simpa using hr
  | noLinks =>
    obtain rfl := Dialect.Passes.nil_iff.1 hp
    intro _ s us hs hu previous
    exact ⟨[], rfl, run_noLinks hs hu⟩
  | @links xs ys is js ms ns hx hy ihx ihy =>
    obtain ⟨ws₁, ws₂, rfl, hp, hq⟩ := hp.of_append
    intro hd s us hs hu previous
    simp only [List.countP_append] at hd
    have he : EndsCompound (ys ++ (s ++ us)) := hy.links_append hs hu
    obtain ⟨t, ts, p, hts, hl, hr⟩ := ihx hp depth (by omega) _ he
    obtain ⟨iss, rfl, hm⟩ := ihy hq depth (by omega) s us hs hu (some is)
    refine ⟨is :: iss, rfl, ?_⟩
    rw [List.append_assoc, hts]
    exact manyAfter_step hl hr hm
  | @descendant s xs is ms hs hne hx ih =>
    obtain ⟨ws₁, ws₂, rfl, hp, hq⟩ := hp.of_cons
    intro hd us hu
    simp only [List.countP_append] at hd
    have hc := ih hq depth (by omega) us hu
    obtain ⟨t, ys, k, rfl, ht⟩ := hx.compound_head
    rw [List.append_assoc]
    exact run_descendant hs hne ht hp hc
  | @combinator t k s₁ s₂ xs is ms hs₁ ht hk hs₂ hx ih =>
    obtain ⟨ws₁, ws₂, rfl, hp, hq⟩ := hp.of_cons
    intro hd us hu
    simp only [List.countP_append, List.countP_cons] at hd
    have hc := ih hq depth (by omega) us hu
    obtain ⟨u, ys, k, rfl, hu⟩ := hx.compound_head
    have hne : u.kind ≠ .whitespace := hu ▸ k.kind_ne_whitespace
    rw [List.append_assoc, List.cons_append, List.append_assoc]
    exact run_combinator hs₁ ht hk hs₂ (by simpa using hne) hp hc
  | compound hne hx ih =>
    intro hd us hu
    exact run_compound hne (ih hp depth hd us hu)
  | noItems =>
    obtain rfl := Dialect.Passes.nil_iff.1 hp
    intro _ us hu
    exact run_noItems _ hu
  | @items previous i is k xs ys ms ns hs hf hx hy ihx ihy =>
    obtain ⟨ws₁, ws₂, rfl, hp, hq⟩ := hp.of_append
    intro hd us hu
    simp only [List.countP_append] at hd
    have ho := forall_head?_append hy.items_head fun t ht => (hu t ht).2
    obtain ⟨t, ts, k', hts, hk, hs', hr⟩ := ihx hp depth (by omega) _ ho
    have hm := ihy hq depth (by omega) us hu
    rw [hs] at hs'
    cases hs'
    rw [List.append_assoc, hts]
    exact run_items hk hf hr hm
  | @tagName t ht hne =>
    obtain rfl := Dialect.Passes.nil_iff.1 hp
    intro _ us _
    refine ⟨t, us, .tagName, rfl, ht, rfl, ?_⟩
    exact run_built_check hne
  | @universal t ht =>
    obtain rfl := Dialect.Passes.nil_iff.1 hp
    intro _ us _
    exact ⟨t, us, .universal, rfl, ht, rfl, rfl⟩
  | @className o t ho ht hne =>
    obtain rfl := Dialect.Passes.nil_iff.1 hp
    intro _ us _
    refine ⟨o, t :: us, .className, rfl, ho, rfl, ?_⟩
    rw [simple, run_bind_expect_cons ht]
    exact run_built_check hne
  | @idName t ht hne =>
    obtain rfl := Dialect.Passes.nil_iff.1 hp
    intro _ us _
    refine ⟨t, us, .idName, rfl, ht, rfl, ?_⟩
    exact run_built_check hne
  | @«attribute» o xs a ms ho hx =>
    intro _ us _
    exact ⟨o, xs ++ us, .attribute, rfl, ho, rfl, run_attributeSelector hx hp⟩
  | @pseudo o t category xs a ms ho ht hne hx ih =>
    obtain ⟨ws₁, ws₂, rfl, hp, hq⟩ := hp.of_cons
    intro hd us hu
    simp only [List.countP_cons] at hd
    have ha := ih hq depth (by omega) us hu t rfl ws₁ hp
    refine ⟨o, t :: (xs ++ us), .pseudo category, rfl, Token.Kind.itemStart?_eq_some.1 ho, rfl, ?_⟩
    exact run_pseudo ht hne ha
  | @bare category name σ hσ hb =>
    obtain rfl := Dialect.Passes.nil_iff.1 hp
    intro _ us hu t ht ws₁ hq
    subst ht
    have hk : (knownArgument (selectorTo depth) category t.text σ).run c us =
        ⟨.ok none, [], us⟩ := run_knownArgument_bare hb hu
    exact run_pseudoArgument_known hσ hq hk
  | @argument category name σ g o t xs a ms hσ hg ho hx ht ih =>
    intro hd us hu u hut ws₁ hq
    subst hut
    have hb := ih hp depth (by simp [opensArgument, ho] at hd; omega) o.position t us ht
    have hk : (knownArgument (selectorTo depth) category u.text σ).run c (o :: (xs ++ t :: us)) =
        ⟨.ok (some a), ws, us⟩ := run_knownArgument hg ho ht hb
    simpa using run_pseudoArgument_known hσ hq hk
  | @bareUnknown category name hσ =>
    obtain rfl := Dialect.Passes.nil_iff.1 hp
    intro _ us hu t ht ws₁ hq
    subst ht
    exact run_pseudoArgument_unknown hσ hq (run_looseArgument_bare hu)
  | @loose category name o t xs text hσ ho hx ht hs =>
    obtain rfl := Dialect.Passes.nil_iff.1 hp
    intro _ us hu u hut ws₁ hq
    subst hut
    rw [List.cons_append, List.append_assoc]
    exact run_pseudoArgument_unknown hσ hq (run_looseArgument ho hx ht hs)
  | selectorBody _ ih =>
    intro hd start t us ht
    have he : EndsSelector (t :: us) := by simpa [EndsSelector] using ht
    exact run_return_of_ok (ih hp depth hd _ he)
  | @formula xs f hx =>
    obtain rfl := Dialect.Passes.nil_iff.1 hp
    intro _ start t us ht
    exact run_return_of_ok (run_formula none hx (by simp [formulaRun, ht]))
  | formulaAlone hx =>
    obtain rfl := Dialect.Passes.nil_iff.1 hp
    intro _ start t us ht
    exact run_formulaOfSelector_alone hx ht
  | @formulaOf xs ys w t f s ms hx hw ht hof hy ih =>
    intro hd start u us hu
    have he : EndsSelector (u :: us) := by simpa [EndsSelector] using hu
    simp only [List.countP_append, List.countP_cons] at hd
    rw [List.append_assoc]
    exact run_formulaOfSelector_of hx hw ht hof (ih hp depth (by omega) _ he)
  | string hx =>
    obtain rfl := Dialect.Passes.nil_iff.1 hp
    intro _ start t us ht
    exact run_return_of_ok (run_literal (by decide) .string hx (by simp [ht]))
  | identifier hx =>
    obtain rfl := Dialect.Passes.nil_iff.1 hp
    intro _ start t us ht
    exact run_return_of_ok (run_literal (by decide) .identifier hx (by simp [ht]))
  | number hx hv =>
    obtain rfl := Dialect.Passes.nil_iff.1 hp
    intro _ start t us ht
    exact run_return_of_ok (run_number hx hv (by simp [ht]))

/-- A whole text is accepted exactly if its tokens read as a selector and what they mention
passes. -/
theorem run_wholeSelector_eq_ok {s : Selector} :
    wholeSelector.run c xs = ⟨.ok s, ws, us⟩ ↔
      us = [] ∧ ∃ ms, Reads c xs (.selector s) ms ∧ c.dialect.Passes ms ws := by
  refine ⟨wholeSelector_sound, ?_⟩
  rintro ⟨rfl, ms, h, hp⟩
  have hs := h.parsed hp (xs.countP opensArgument + 1) (Nat.lt_succ_self _) []
    (by simp [EndsSelector])
  rw [List.append_nil] at hs
  rw [wholeSelector, run_bind_ahead, ← List.append_nil ws]
  exact run_bind_of_ok hs rfl

end
end Parse

open Parse

theorem Dialect.parseTokens_eq_ok {d : Dialect} {source : List Char} {ts : List Token}
    {r : Reading} : d.parseTokens source ts = .ok r ↔
      ∃ ms, Reads ⟨d, source⟩ ts (.selector r.selector) ms ∧ d.Passes ms r.warnings := by
  have hs : wholeSelector.run ⟨d, source⟩ ts = ⟨.ok r.selector, r.warnings, []⟩ ↔
      ∃ ms, Reads ⟨d, source⟩ ts (.selector r.selector) ms ∧ d.Passes ms r.warnings := by
    rw [run_wholeSelector_eq_ok]
    exact and_iff_right rfl
  rw [parseTokens, ← hs]
  rcases hr : wholeSelector.run ⟨d, source⟩ ts with ⟨e | s, ws, us⟩
  · simp [Except.map]
  · obtain ⟨rfl, -⟩ := wholeSelector_sound hr
    obtain ⟨s', ws'⟩ := r
    simp [Except.map]

theorem Dialect.parse_eq_ok {d : Dialect} {text : String} {r : Reading} :
    d.parse text = .ok r ↔ ∃ ts, tokenize text = .ok ts ∧ ∃ ms,
      Reads ⟨d, text.toList⟩ ts.dropLast (.selector r.selector) ms ∧ d.Passes ms r.warnings := by
  cases ht : tokenize text with
  | error e => simp [parse_of_lexError ht]
  | ok ts => simp [parse_of_tokenize ht, parseTokens_eq_ok]

end CssSelector
