import CssSelector.Proofs.Reads.Attribute
import CssSelector.Proofs.Reads.Formula
import CssSelector.Proofs.Reads.Loose

/-!
Whatever a parser takes off the tokens reads as the value that it comes to (`selectorTo_sound`).
There is one lemma for each parser; those of parsers that meet selectors in arguments ask the same
of the parser of these.
-/

set_option autoImplicit false

namespace CssSelector.Parse

open CssSelector.Parse.Parser

/-- The tokens up to `us` read as the phrase, and what they mention passes with the warnings. -/
def Takes (c : Context) (ts us : List Token) (p : Phrase) (ws : List Warning) : Prop :=
  ∃ xs ms, ts = xs ++ us ∧ Reads c xs p ms ∧ c.dialect.Passes ms ws

def Sound (nested : Parser Selector) : Prop :=
  ∀ ⦃c ts s ws us⦄, nested.run c ts = ⟨.ok s, ws, us⟩ → Takes c ts us (.selector s) ws

section
variable {c : Context} {ts us : List Token} {ws : List Warning} {nested : Parser Selector}

theorem literal_sound {kind : Token.Kind} (hk : kind ≠ .endOfInput) {what : Expectation}
    {t : Token} (h : (literal kind what).run c ts = ⟨.ok t, ws, us⟩) :
    ∃ xs, ts = xs ++ us ∧ ReadsLiteral kind xs t ∧ ws = [] := by
  rw [literal] at h
  replace h := exists_of_run_bind_skipSpace h
  obtain ⟨s₁, ts, rfl, hs₁, -, h⟩ := h
  replace h := exists_of_run_bind_expect hk h
  obtain ⟨u, ts, rfl, hu, h⟩ := h
  replace h := exists_of_run_bind_skipSpace h
  obtain ⟨s₂, ts, rfl, hs₂, -, h⟩ := h
  cases h
  exact ⟨s₁ ++ t :: s₂, by simp, ⟨hs₁, hu, hs₂⟩, rfl⟩

theorem number_sound {x : Binary64} (h : number.run c ts = ⟨.ok x, ws, us⟩) :
    ∃ xs t, ts = xs ++ us ∧ ReadsLiteral .number xs t ∧
      Binary64.ofNumeral? t.text.toList = some x ∧ ws = [] := by
  rw [number, run_bind_eq_ok] at h
  obtain ⟨t, _, _, _, hl, h, rfl⟩ := h
  obtain ⟨xs, rfl, hx, rfl⟩ := literal_sound (by decide) hl
  cases hn : Binary64.ofNumeral? t.text.toList with
  | none => simp [hn] at h
  | some y =>
    simp only [hn, run_pure] at h
    cases h
    exact ⟨xs, t, rfl, hx, hn, rfl⟩

theorem argumentBody_sound (hn : Sound nested) {start : Nat} {g : ArgumentGrammar} {a : Argument}
    (h : (argumentBody nested start g).run c ts = ⟨.ok a, ws, us⟩) :
    Takes c ts us (.body g a) ws := by
  cases g with
  | noArgument => simp [argumentBody] at h
  | selector =>
    rw [argumentBody, run_bind_eq_ok] at h
    obtain ⟨s, _, _, _, hs, h, rfl⟩ := h
    obtain ⟨xs, ms, rfl, hx, hp⟩ := hn hs
    cases h
    exact ⟨xs, ms, rfl, .selectorBody hx, by simpa using hp⟩
  | formula =>
    rw [argumentBody, run_bind_eq_ok] at h
    obtain ⟨f, _, _, _, hf, h, rfl⟩ := h
    obtain ⟨_, xs, -, rfl, -, hx, rfl⟩ := formula_sound hf
    cases h
    exact ⟨xs, [], rfl, .formula hx, .nil⟩
  | formulaOfSelector =>
    rcases formulaOfSelector_sound h with ⟨xs, f, rfl, hx, rfl, rfl⟩ | h
    · exact ⟨xs, [], rfl, .formulaAlone hx, .nil⟩
    · obtain ⟨xs, w, t, vs, f, s, rfl, hx, hw, ht, hof, hs, rfl⟩ := h
      obtain ⟨ys, ms, rfl, hy, hp⟩ := hn hs
      exact ⟨xs ++ w :: t :: ys, ms, by simp, .formulaOf hx hw ht hof hy, hp⟩
  | string =>
    rw [argumentBody, run_bind_eq_ok] at h
    obtain ⟨t, _, _, _, hl, h, rfl⟩ := h
    obtain ⟨xs, rfl, hx, rfl⟩ := literal_sound (by decide) hl
    cases h
    exact ⟨xs, [], rfl, .string hx, .nil⟩
  | identifier =>
    rw [argumentBody, run_bind_eq_ok] at h
    obtain ⟨t, _, _, _, hl, h, rfl⟩ := h
    obtain ⟨xs, rfl, hx, rfl⟩ := literal_sound (by decide) hl
    cases h
    exact ⟨xs, [], rfl, .identifier hx, .nil⟩
  | number =>
    rw [argumentBody, run_bind_eq_ok] at h
    obtain ⟨x, _, _, _, hx, h, rfl⟩ := h
    obtain ⟨xs, t, rfl, hl, hv, rfl⟩ := number_sound hx
    cases h
    exact ⟨xs, [], rfl, .number hl hv, .nil⟩

theorem knownArgument_sound (hn : Sound nested) {category : Category} {name : String}
    {σ : Signature} (hσ : c.dialect.signature? category name = some σ) {a : Option Argument}
    (h : (knownArgument nested category name σ).run c ts = ⟨.ok a, ws, us⟩) :
    Takes c ts us (.argument category name a) ws := by
  rw [knownArgument, run_bind_front] at h
  by_cases ho : (c.front ts).kind = .leftParen
  · cases ts with
    | nil => simp at ho
    | cons o ts =>
      rw [Context.front_cons] at ho
      simp only [Context.front_cons, ho, if_true, run_bind_skip, List.drop_one,
        List.tail_cons] at h
      split at h
      next => simp at h
      next => simp at h
      next g _ hg =>
        rw [run_bind_eq_ok] at h
        obtain ⟨b, ws₁, _, ws₂, hb, h, rfl⟩ := h
        obtain ⟨xs, ms, rfl, hx, hp⟩ := argumentBody_sound hn hb
        rw [discard_bind] at h
        replace h := exists_of_run_bind_expect (by decide) h
        obtain ⟨t, vs, rfl, ht, h⟩ := h
        cases h
        exact ⟨o :: (xs ++ [t]), ms, by simp, .argument hσ hg ho hx ht, by simpa using hp⟩
  · simp only [ho, if_false] at h
    split at h
    next hb =>
      cases h
      exact ⟨[], [], rfl, .bare hσ hb, .nil⟩
    next => simp at h

theorem pseudoArgument_sound (hn : Sound nested) {category : Category} {t : Token}
    {a : Option Argument} (h : (pseudoArgument nested category t).run c ts = ⟨.ok a, ws, us⟩) :
    ∃ xs ms, ts = xs ++ us ∧ Reads c xs (.argument category t.text a) ms ∧
      c.dialect.Passes (⟨.pseudo category t.text, t.position⟩ :: ms) ws := by
  rw [pseudoArgument, run_bind_context] at h
  cases hσ : c.dialect.signature? category t.text with
  | some σ =>
    simp only [hσ] at h
    obtain ⟨xs, ms, rfl, hx, hp⟩ := knownArgument_sound hn hσ h
    have hr : c.dialect.recognises (.pseudo category t.text) := by
      simp [Dialect.recognises, hσ]
    exact ⟨xs, ms, rfl, hx, (Dialect.Passes.of_recognises hr).cons hp⟩
  | none =>
    simp only [hσ] at h
    replace h := exists_of_run_bind_judge h
    obtain ⟨ws₁, ws₂, rfl, hp, h⟩ := h
    obtain ⟨xs, rfl, hx, rfl⟩ := looseArgument_sound hσ h
    exact ⟨xs, [], rfl, hx, hp.cons .nil⟩

theorem pseudo_sound (hn : Sound nested) {category : Category} {o : Token}
    (ho : o.kind.itemStart? = some (.pseudo category)) {i : Item}
    (h : (pseudo nested category).run c ts = ⟨.ok i, ws, us⟩) :
    Takes c (o :: ts) us (.item i) ws ∧ ∃ name a, i = .pseudo category name a := by
  rw [pseudo] at h
  replace h := exists_of_run_bind_expect (by decide) h
  obtain ⟨t, ts, rfl, ht, h⟩ := h
  rw [run_bind_eq_ok] at h
  obtain ⟨a, ws₁, vs, ws₂, ha, h, rfl⟩ := h
  obtain ⟨hb, rfl, rfl⟩ := run_built_eq_ok.1 h
  obtain ⟨hne, rfl⟩ := EmptyName.map_check_eq_ok.1 hb
  obtain ⟨xs, ms, rfl, hx, hp⟩ := pseudoArgument_sound hn ha
  rw [List.append_nil]
  exact ⟨⟨o :: t :: xs, _, rfl, .pseudo ho ht hne hx, hp⟩, t.text, a, rfl⟩

theorem simple_sound (hn : Sound nested) {t : Token} {k : ItemStart} (hk : t.kind = k.kind)
    {i : Item} (h : (simple nested t k).run c ts = ⟨.ok i, ws, us⟩) :
    Takes c (t :: ts) us (.item i) ws ∧ i.start? = some k := by
  cases k with
  | tagName =>
    obtain ⟨hb, rfl, rfl⟩ := run_built_eq_ok.1 h
    obtain ⟨hne, rfl⟩ := EmptyName.map_check_eq_ok.1 hb
    exact ⟨⟨[t], [], rfl, .tagName hk hne, .nil⟩, rfl⟩
  | universal =>
    cases h
    exact ⟨⟨[t], [], rfl, .universal hk, .nil⟩, rfl⟩
  | className =>
    replace h := exists_of_run_bind_expect (by decide) h
    obtain ⟨u, ts, rfl, hu, h⟩ := h
    obtain ⟨hb, rfl, rfl⟩ := run_built_eq_ok.1 h
    obtain ⟨hne, rfl⟩ := EmptyName.map_check_eq_ok.1 hb
    exact ⟨⟨[t, u], [], rfl, .className hk hu hne, .nil⟩, rfl⟩
  | idName =>
    obtain ⟨hb, rfl, rfl⟩ := run_built_eq_ok.1 h
    obtain ⟨hne, rfl⟩ := EmptyName.map_check_eq_ok.1 hb
    exact ⟨⟨[t], [], rfl, .idName hk hne, .nil⟩, rfl⟩
  | «attribute» =>
    obtain ⟨xs, a, ms, rfl, rfl, hx, hp⟩ := attributeSelector_sound h
    exact ⟨⟨t :: xs, ms, rfl, .attribute hk hx, hp⟩, rfl⟩
  | pseudo category =>
    obtain ⟨hi, name, a, rfl⟩ := pseudo_sound hn (Token.Kind.itemStart?_eq_some.2 hk) h
    exact ⟨hi, rfl⟩

theorem run_checkOrder_eq_ok {previous : Option Item} {t : Token} {k : ItemStart} :
    (checkOrder previous t k).run c ts = ⟨.ok (), ws, us⟩ ↔
      k.mayFollow previous ∧ ws = [] ∧ us = ts := by
  unfold checkOrder ItemStart.mayFollow
  split <;> simp [eq_comm]

theorem itemAt_sound (hn : Sound nested) {previous : Option Item} {t : Token}
    {p : Parser (Option Item)} (hp : itemAt nested previous t = some p) {o : Option Item}
    (h : p.run c ts = ⟨.ok o, ws, us⟩) :
    ∃ i k, o = some i ∧ i.start? = some k ∧ k.mayFollow previous ∧
      Takes c (t :: ts) us (.item i) ws := by
  obtain ⟨k, hk, rfl⟩ := Option.map_eq_some_iff.1 hp
  rw [run_bind_eq_ok] at h
  obtain ⟨_, _, _, _, ho, h, rfl⟩ := h
  obtain ⟨hf, rfl, rfl⟩ := run_checkOrder_eq_ok.1 ho
  rw [run_bind_eq_ok] at h
  obtain ⟨i, _, _, _, hi, h, rfl⟩ := h
  cases h
  obtain ⟨ht, hs⟩ := simple_sound hn (Token.Kind.itemStart?_eq_some.1 hk) hi
  exact ⟨i, k, rfl, hs, hf, by simpa using ht⟩

theorem items_sound (hn : Sound nested) {previous : Option Item} {is : List Item}
    (h : manyAfter (itemAt nested) c previous ts = ⟨.ok is, ws, us⟩) :
    Takes c ts us (.items previous is) ws := by
  refine manyAfter_induction
    (P := fun previous ts is ws us => Takes c ts us (.items previous is) ws) ?_ ?_ ?_ ?_ h
  · exact fun _ => ⟨[], [], rfl, .noItems, .nil⟩
  · exact fun _ _ _ _ => ⟨[], [], rfl, .noItems, .nil⟩
  · intro previous t us p ws vs hp h
    obtain ⟨i, k, ho, -⟩ := itemAt_sound hn hp h
    contradiction
  · intro previous t us p i ws vs is ws' rest hp h ih
    obtain ⟨j, k, ho, hs, hf, xs, ms, hx, hi, hq⟩ := itemAt_sound hn hp h
    obtain ⟨ys, ns, rfl, hy, hr⟩ := ih
    cases ho
    exact ⟨xs ++ ys, ms ++ ns, by simp [hx], .items hs hf hi hy, hq.append hr⟩

theorem compound_sound (hn : Sound nested) {is : List Item}
    (h : (compound nested).run c ts = ⟨.ok is, ws, us⟩) : Takes c ts us (.compound is) ws := by
  rw [compound, run_bind_eq_ok] at h
  obtain ⟨js, _, _, _, hm, h, rfl⟩ := h
  by_cases hj : js.isEmpty
  · simp [hj] at h
  · simp only [hj] at h
    cases h
    obtain ⟨xs, ms, rfl, hx, hp⟩ := items_sound hn hm
    exact ⟨xs, ms, rfl, .compound (by simpa using hj) hx, by simpa using hp⟩

theorem link_sound (hn : Sound nested) {k : Combinator} {n : Nat} {is : List Item}
    (h : (link nested k n).run c ts = ⟨.ok is, ws, us⟩) :
    ∃ s xs js ms, ts = s ++ (xs ++ us) ∧ Spaces s ∧ is = .combinator k :: js ∧
      Reads c xs (.compound js) ms ∧ c.dialect.Passes (⟨.combinator k, n⟩ :: ms) ws := by
  rw [link] at h
  replace h := exists_of_run_bind_judge h
  obtain ⟨ws₁, ws₂, rfl, hp, h⟩ := h
  replace h := exists_of_run_bind_skipSpace h
  obtain ⟨s, ts, rfl, hs, -, h⟩ := h
  rw [run_bind_eq_ok] at h
  obtain ⟨js, ws₃, _, ws₄, hc, h, rfl⟩ := h
  obtain ⟨xs, ms, rfl, hx, hq⟩ := compound_sound hn hc
  cases h
  exact ⟨s, xs, js, ms, rfl, hs, rfl, hx, hp.cons (by simpa using hq)⟩

theorem explicitLink_sound (hn : Sound nested) {t : Token} (ht : t.kind = .combinator)
    {s : List Token} (hs : Spaces s) {is : List Item}
    (h : (explicitLink nested t).run c ts = ⟨.ok is, ws, us⟩) :
    Takes c (s ++ t :: ts) us (.link is) ws := by
  unfold explicitLink at h
  split at h
  next k hk =>
    obtain ⟨s₂, xs, js, ms, rfl, hs₂, rfl, hx, hp⟩ := link_sound hn h
    exact ⟨s ++ t :: (s₂ ++ xs), _, by simp, .combinator hs ht hk hs₂ hx, hp⟩
  next => simp at h

/-- White space behind a compound is a combinator, or belongs to one, or ends the rule. -/
theorem spacedLink_sound (hn : Sound nested) {t : Token} (ht : t.kind = .whitespace)
    {o : Option (List Item)} (h : (spacedLink nested).run c ts = ⟨.ok o, ws, us⟩) :
    (∃ s, o = none ∧ ts = s ++ us ∧ Spaces s ∧ ws = []) ∨
      ∃ is, o = some is ∧ Takes c (t :: ts) us (.link is) ws := by
  rw [spacedLink] at h
  replace h := exists_of_run_bind_skipSpace h
  obtain ⟨s, ts, rfl, hs, hhead, h⟩ := h
  rw [run_bind_front] at h
  have hts : Spaces (t :: s) := Spaces.cons_iff.2 ⟨ht, hs⟩
  split at h
  next =>
    cases h
    exact .inl ⟨s, rfl, rfl, hs, rfl⟩
  next =>
    cases h
    exact .inl ⟨s, rfl, rfl, hs, rfl⟩
  next =>
    cases h
    exact .inl ⟨s, rfl, rfl, hs, rfl⟩
  next hk =>
    cases ts with
    | nil => simp at hk
    | cons u ts =>
      simp only [run_bind_skip, Context.front_cons, List.drop_one, List.tail_cons] at h hk
      rw [run_bind_eq_ok] at h
      obtain ⟨is, _, _, _, hl, h, rfl⟩ := h
      cases h
      exact .inr ⟨is, rfl, by simpa using explicitLink_sound hn hk hts hl⟩
  next =>
    rw [run_bind_eq_ok] at h
    obtain ⟨is, _, _, _, hl, h, rfl⟩ := h
    cases h
    obtain ⟨s₂, xs, js, ms, rfl, hs₂, rfl, hx, hp⟩ := link_sound hn hl
    -- the white space is all skipped before the combinator is judged
    have hnil : s₂ = [] := by
      cases s₂ with
      | nil => rfl
      | cons u s₂ => exact absurd (Spaces.cons_iff.1 hs₂).1 (hhead u rfl)
    subst hnil
    obtain ⟨u, ys, k, rfl, -⟩ := hx.compound_head
    exact .inr ⟨_, rfl, t :: s ++ u :: ys, _, by simp, .descendant hts (by simp) hx,
      by simpa using hp⟩

theorem linkAt_sound (hn : Sound nested) {t : Token} {p : Parser (Option (List Item))}
    (hp : linkAt nested t = some p) {o : Option (List Item)}
    (h : p.run c ts = ⟨.ok o, ws, us⟩) :
    (∃ s, o = none ∧ t :: ts = s ++ us ∧ Spaces s ∧ ws = []) ∨
      ∃ is, o = some is ∧ Takes c (t :: ts) us (.link is) ws := by
  unfold linkAt at hp
  split at hp
  next => contradiction
  next => contradiction
  next ht =>
    cases hp
    rcases spacedLink_sound hn ht h with ⟨s, rfl, rfl, hs, rfl⟩ | h
    · exact .inl ⟨t :: s, rfl, rfl, Spaces.cons_iff.2 ⟨ht, hs⟩, rfl⟩
    · exact .inr h
  next ht =>
    cases hp
    rw [run_bind_eq_ok] at h
    obtain ⟨is, _, _, _, hl, h, rfl⟩ := h
    cases h
    exact .inr ⟨is, rfl, by simpa using explicitLink_sound hn ht Spaces.nil hl⟩
  next =>
    cases hp
    simp at h

theorem links_sound (hn : Sound nested) {iss : List (List Item)}
    (h : (many fun _ => linkAt nested).run c ts = ⟨.ok iss, ws, us⟩) :
    ∃ s, Spaces s ∧ Takes c ts (s ++ us) (.links iss.flatten) ws := by
  refine manyAfter_induction (P := fun _ ts iss ws us =>
    ∃ s, Spaces s ∧ Takes c ts (s ++ us) (.links iss.flatten) ws) ?_ ?_ ?_ ?_ h
  · exact fun _ => ⟨[], Spaces.nil, [], [], rfl, .noLinks, .nil⟩
  · exact fun _ _ _ _ => ⟨[], Spaces.nil, [], [], rfl, .noLinks, .nil⟩
  · intro _ t us p ws vs hp h
    rcases linkAt_sound hn hp h with ⟨s, -, hs, hss, rfl⟩ | ⟨is, ho, -⟩
    · exact ⟨s, hss, [], [], hs, .noLinks, .nil⟩
    · contradiction
  · intro _ t us p is ws vs iss ws' rest hp h ih
    rcases linkAt_sound hn hp h with ⟨s, ho, -⟩ | ⟨js, ho, xs, ms, hx, hl, hq⟩
    · contradiction
    · cases ho
      obtain ⟨s, hs, ys, ns, rfl, hy, hr⟩ := ih
      exact ⟨s, hs, xs ++ ys, ms ++ ns, by simp [hx], .links hl hy, hq.append hr⟩

theorem rule_sound (hn : Sound nested) {r : Rule}
    (h : (rule nested).run c ts = ⟨.ok r, ws, us⟩) : Takes c ts us (.rule r) ws := by
  rw [rule, run_bind_eq_ok] at h
  obtain ⟨is, _, _, _, hc, h, rfl⟩ := h
  obtain ⟨xs, ms, rfl, hx, hp⟩ := compound_sound hn hc
  rw [run_bind_eq_ok] at h
  obtain ⟨iss, _, _, _, hm, h, rfl⟩ := h
  obtain ⟨s, hs, ys, ns, rfl, hy, hq⟩ := links_sound hn hm
  cases h
  exact ⟨xs ++ (ys ++ s), ms ++ ns, by simp, .rule hx hy hs, by simpa using hp.append hq⟩

theorem spacedRule_sound (hn : Sound nested) {r : Rule}
    (h : (spacedRule nested).run c ts = ⟨.ok r, ws, us⟩) :
    ∃ s xs ms, ts = s ++ (xs ++ us) ∧ Spaces s ∧ Reads c xs (.rule r) ms ∧
      c.dialect.Passes ms ws := by
  rw [spacedRule] at h
  replace h := exists_of_run_bind_skipSpace h
  obtain ⟨s, ts, rfl, hs, -, h⟩ := h
  obtain ⟨xs, ms, rfl, hx, hp⟩ := rule_sound hn h
  exact ⟨s, xs, ms, rfl, hs, hx, hp⟩

theorem ruleAt_sound (hn : Sound nested) {t : Token} {p : Parser (Option Rule)}
    (hp : ruleAt nested t = some p) {o : Option Rule} (h : p.run c ts = ⟨.ok o, ws, us⟩) :
    ∃ r s xs ms, o = some r ∧ t.kind = .comma ∧ ts = s ++ (xs ++ us) ∧ Spaces s ∧
      Reads c xs (.rule r) ms ∧ c.dialect.Passes ms ws := by
  unfold ruleAt at hp
  split at hp
  next ht =>
    cases hp
    rw [run_bind_eq_ok] at h
    obtain ⟨r, _, _, _, hr, h, rfl⟩ := h
    cases h
    obtain ⟨s, xs, ms, rfl, hs, hx, hp⟩ := spacedRule_sound hn hr
    exact ⟨r, s, xs, ms, rfl, ht, rfl, hs, hx, by simpa using hp⟩
  next => contradiction

theorem otherRules_sound (hn : Sound nested) {rs : List Rule}
    (h : (many fun _ => ruleAt nested).run c ts = ⟨.ok rs, ws, us⟩) :
    Takes c ts us (.rules rs) ws := by
  refine manyAfter_induction
    (P := fun _ ts rs ws us => Takes c ts us (.rules rs) ws) ?_ ?_ ?_ ?_ h
  · exact fun _ => ⟨[], [], rfl, .noRules, .nil⟩
  · exact fun _ _ _ _ => ⟨[], [], rfl, .noRules, .nil⟩
  · intro _ t us p ws vs hp h
    obtain ⟨r, s, xs, ms, ho, -⟩ := ruleAt_sound hn hp h
    contradiction
  · intro _ t us p r ws vs rs ws' rest hp h ih
    obtain ⟨r', s, xs, ms, ho, ht, rfl, hs, hx, hq⟩ := ruleAt_sound hn hp h
    obtain ⟨ys, ns, rfl, hy, hr⟩ := ih
    cases ho
    exact ⟨t :: (s ++ (xs ++ ys)), ms ++ ns, by simp, .rules ht hs hx hy, hq.append hr⟩

theorem rules_sound (hn : Sound nested) {rs : List Rule}
    (h : (rules nested).run c ts = ⟨.ok rs, ws, us⟩) : Takes c ts us (.selector ⟨rs⟩) ws := by
  rw [rules, run_bind_eq_ok] at h
  obtain ⟨r, _, _, _, hr, h, rfl⟩ := h
  obtain ⟨s, xs, ms, rfl, hs, hx, hp⟩ := spacedRule_sound hn hr
  rw [run_bind_eq_ok] at h
  obtain ⟨rs', _, _, _, hm, h, rfl⟩ := h
  obtain ⟨ys, ns, rfl, hy, hq⟩ := otherRules_sound hn hm
  cases h
  exact ⟨s ++ (xs ++ ys), ms ++ ns, by simp, .selector hs hx hy, by simpa using hp.append hq⟩

theorem selectorTo_sound (depth : Nat) : Sound (selectorTo depth) := by
  induction depth with
  | zero =>
    intro c ts s ws us h
    simp [selectorTo] at h
  | succ depth ih =>
    intro c ts s ws us h
    rw [selectorTo, run_bind_eq_ok] at h
    obtain ⟨rs, _, _, _, hr, h, rfl⟩ := h
    cases h
    simpa using rules_sound ih hr

theorem wholeSelector_sound {s : Selector} (h : wholeSelector.run c ts = ⟨.ok s, ws, us⟩) :
    us = [] ∧ ∃ ms, Reads c ts (.selector s) ms ∧ c.dialect.Passes ms ws := by
  rw [wholeSelector, run_bind_ahead, run_bind_eq_ok] at h
  obtain ⟨s', _, vs, _, hs, h, rfl⟩ := h
  obtain ⟨xs, ms, rfl, hx, hp⟩ := selectorTo_sound _ hs
  rw [run_bind_ahead] at h
  by_cases hv : vs.isEmpty
  · simp only [hv, if_true, run_pure] at h
    cases h
    rw [List.isEmpty_iff] at hv
    subst hv
    exact ⟨rfl, ms, by simpa using hx, by simpa using hp⟩
  · simp [hv] at h

end

end CssSelector.Parse
