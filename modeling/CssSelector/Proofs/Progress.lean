import CssSelector.Proofs.Safety

/-!
Progress. Wherever a parser of a piece of a selector succeeds it takes a token, and rules and
selectors end only in front of a token that ends them. An argument holds fewer opening parentheses
than there are from its own one on, so that the descent into arguments comes to an end by itself:
there is just one parser of selectors of any depth, and a limit to the depth makes no difference
where it is not below the number of parentheses (`Dialect.descent_of_tokenize`).
-/

set_option autoImplicit false

namespace CssSelector.Parse

namespace Parser
variable {α β : Type} {c : Context} {ts us : List Token} {ws : List Warning}

theorem suffix_of_run {p : Parser α} {r : Except ParseError α} (h : p.run c ts = ⟨r, ws, us⟩) :
    us <:+ ts := by
  have hs := p.suffix c ts
  rwa [h] at hs

def Consumes (p : Parser α) : Prop :=
  ∀ ⦃c ts a ws us⦄, p.run c ts = ⟨.ok a, ws, us⟩ → us.length < ts.length

namespace Consumes
variable {p : Parser α} {f : α → Parser β}

protected theorem fail (e : ParseError) : (fail e : Parser α).Consumes := nofun

theorem bind (h : p.Consumes) (f : α → Parser β) : (p >>= f).Consumes := by
  intro c ts b ws us hr
  obtain ⟨a, _, vs, _, hp, hf, -⟩ := run_bind_eq_ok.1 hr
  exact Nat.lt_of_le_of_lt (suffix_of_run hf).length_le (h hp)

theorem of_bind (p : Parser α) (h : ∀ a, (f a).Consumes) : (p >>= f).Consumes := by
  intro c ts b ws us hr
  obtain ⟨a, _, vs, _, hp, hf, -⟩ := run_bind_eq_ok.1 hr
  exact Nat.lt_of_lt_of_le (h a hf) (suffix_of_run hp).length_le

theorem expect {kind : Token.Kind} (hk : kind ≠ .endOfInput) (what : Expectation) :
    (expect kind what).Consumes := by
  intro c ts t ws us hr
  obtain ⟨rfl, -⟩ := (run_expect_eq_ok hk).1 hr
  exact Nat.lt_succ_self _

end Consumes

theorem length_lt_of_many {next : Option α → Token → Option (Parser (Option α))} {as : List α}
    (h : (many next).run c ts = ⟨.ok as, ws, us⟩) (hne : as ≠ []) : us.length < ts.length := by
  replace h : (manyFrom next none).run c ts = ⟨.ok as, ws, us⟩ := h
  cases ts with
  | nil =>
    rw [run_manyFrom_nil] at h
    cases h
    contradiction
  | cons t vs =>
    cases hp : next none t with
    | none =>
      rw [run_manyFrom_stop hp] at h
      cases h
      contradiction
    | some p =>
      rw [run_manyFrom_cons hp] at h
      exact Nat.lt_succ_of_le (suffix_of_run h).length_le

def EndsBefore (kinds : List Token.Kind) (p : Parser α) : Prop :=
  ∀ ⦃c ts a ws us⦄, p.run c ts = ⟨.ok a, ws, us⟩ → (c.front us).kind ∈ kinds

theorem EndsBefore.of_bind {kinds : List Token.Kind} {f : α → Parser β} (p : Parser α)
    (h : ∀ a, (f a).EndsBefore kinds) : (p >>= f).EndsBefore kinds := by
  intro c ts b ws us hr
  obtain ⟨a, _, vs, _, -, hf, -⟩ := run_bind_eq_ok.1 hr
  exact h a hf

theorem EndsBefore.map {kinds : List Token.Kind} {p : Parser α} (h : p.EndsBefore kinds)
    (f : α → β) : (do return f (← p) : Parser β).EndsBefore kinds := by
  intro c ts b ws us hr
  obtain ⟨a, _, vs, _, hp, hf, -⟩ := run_bind_eq_ok.1 hr
  cases hf
  exact h hp

end Parser

open CssSelector.Parse.Parser

/-! What each parser takes, whatever parses the arguments. -/

section
variable (nested : Parser Selector)

theorem attributeSelector_consumes : attributeSelector.Consumes :=
  .of_bind _ fun _ => .bind (.expect (by decide) _) _

theorem pseudo_consumes (category : Category) : (pseudo nested category).Consumes :=
  .bind (.expect (by decide) _) _

theorem compound_consumes : (compound nested).Consumes := by
  intro c ts is ws us h
  obtain ⟨js, _, vs, _, hm, h, -⟩ := run_bind_eq_ok.1 h
  by_cases hj : js.isEmpty
  · simp [hj] at h
  · simp only [hj] at h
    cases h
    exact length_lt_of_many hm (by simpa using hj)

theorem rule_consumes : (rule nested).Consumes := .bind (compound_consumes nested) _

theorem spacedRule_consumes : (spacedRule nested).Consumes :=
  .of_bind _ fun _ => rule_consumes nested

theorem rules_consumes : (rules nested).Consumes := .bind (spacedRule_consumes nested) _

theorem selectorTo_consumes (depth : Nat) : (selectorTo depth).Consumes := by
  cases depth with
  | zero => exact .fail _
  | succ depth => exact .bind (rules_consumes _) _

def ruleEnds : List Token.Kind := [.comma, .rightParen, .endOfInput]

def selectorEnds : List Token.Kind := [.rightParen, .endOfInput]

variable {nested} {c : Context} {ts us : List Token} {ws : List Warning}

theorem kind_of_linkAt_eq_none {t : Token} (h : linkAt nested t = none) : t.kind ∈ ruleEnds := by
  unfold linkAt at h
  split at h <;> simp_all [ruleEnds]

theorem front_of_linkAt_last {t : Token} {p : Parser (Option (List Item))}
    (hp : linkAt nested t = some p) (h : p.run c ts = ⟨.ok none, ws, us⟩) :
    (c.front us).kind ∈ ruleEnds := by
  unfold linkAt at hp
  split at hp
  next => contradiction
  next => contradiction
  next =>
    cases hp
    rw [spacedLink, run_bind_skipSpace, run_bind_front] at h
    split at h
    case h_1 hk | h_2 hk | h_3 hk =>
      cases h
      simp [hk, ruleEnds]
    case h_4 =>
      rw [run_bind_skip] at h
      obtain ⟨_, _, _, _, -, h, -⟩ := run_bind_eq_ok.1 h
      cases h
    case h_5 =>
      obtain ⟨_, _, _, _, -, h, -⟩ := run_bind_eq_ok.1 h
      cases h
  next =>
    cases hp
    obtain ⟨_, _, _, _, -, h, -⟩ := run_bind_eq_ok.1 h
    cases h
  next =>
    cases hp
    cases h

theorem links_endBefore : (many fun _ => linkAt nested).EndsBefore ruleEnds := by
  intro c ts iss ws us h
  refine manyAfter_induction (P := fun _ _ _ _ us => (c.front us).kind ∈ ruleEnds) ?_ ?_ ?_ ?_ h
  · exact fun _ => by simp [ruleEnds]
  · exact fun _ t us hn => kind_of_linkAt_eq_none hn
  · exact fun _ t us p ws vs hp h => front_of_linkAt_last hp h
  · exact fun _ t us p is ws vs iss ws' rest _ _ ih => ih

theorem rule_endsBefore (nested : Parser Selector) : (rule nested).EndsBefore ruleEnds :=
  .of_bind _ fun _ => links_endBefore.map _

theorem spacedRule_endsBefore (nested : Parser Selector) :
    (spacedRule nested).EndsBefore ruleEnds := .of_bind _ fun _ => rule_endsBefore nested

theorem ruleAt_eq_some_iff {t : Token} {p : Parser (Option Rule)} :
    ruleAt nested t = some p ↔ t.kind = .comma ∧ (do return some (← spacedRule nested)) = p := by
  simp [ruleAt]

theorem kind_of_ruleAt_eq_none {t : Token} (h : ruleAt nested t = none) (ht : t.kind ∈ ruleEnds) :
    t.kind ∈ selectorEnds := by
  have hc : t.kind ≠ .comma := by simpa [ruleAt] using h
  simpa [ruleEnds, selectorEnds, hc] using ht

theorem front_of_otherRules {rs : List Rule} (ht : (c.front ts).kind ∈ ruleEnds)
    (h : (many fun _ => ruleAt nested).run c ts = ⟨.ok rs, ws, us⟩) :
    (c.front us).kind ∈ selectorEnds := by
  refine manyAfter_induction (P := fun _ ts _ _ us =>
    (c.front ts).kind ∈ ruleEnds → (c.front us).kind ∈ selectorEnds) ?_ ?_ ?_ ?_ h ht
  · exact fun _ _ => by simp [selectorEnds]
  · exact fun _ t us hn ht => kind_of_ruleAt_eq_none hn ht
  · intro _ t us p ws vs hp h _
    obtain ⟨-, rfl⟩ := ruleAt_eq_some_iff.1 hp
    obtain ⟨_, _, _, _, -, h, -⟩ := run_bind_eq_ok.1 h
    cases h
  · intro _ t us p r ws vs rs ws' rest hp h ih _
    obtain ⟨-, rfl⟩ := ruleAt_eq_some_iff.1 hp
    exact ih ((spacedRule_endsBefore nested).map some h)

theorem rules_endBefore (nested : Parser Selector) : (rules nested).EndsBefore selectorEnds := by
  intro c ts rs ws us h
  obtain ⟨r, _, vs, _, hr, h, -⟩ := run_bind_eq_ok.1 h
  obtain ⟨rs', _, _, _, hm, h, -⟩ := run_bind_eq_ok.1 h
  cases h
  exact front_of_otherRules (spacedRule_endsBefore nested hr) hm

theorem selectorTo_endsBefore (depth : Nat) : (selectorTo depth).EndsBefore selectorEnds := by
  cases depth with
  | zero => nofun
  | succ depth => exact (rules_endBefore _).map _

end

/-! Selectors of any depth. -/

def Simulation.refl (c : Context) : Simulation where
  left := c
  right := c
  place := id
  Rel s s' := s = s'
  signature _ _ := rfl
  size := rfl
  slice _ _ := rfl
  ok a ts := by rw [Token.move_id, List.map_id]
  error e ts := by rw [ParseError.move_id, Token.move_id, List.map_id]
  judged f n ts := by rw [Token.move_id, List.map_id, id]
  chained := by
    intro α β p q f g ts hp hf
    simp only [Token.move_id, List.map_id] at hp hf ⊢
    rw [run_bind, run_bind, hp]
    rcases hq : q.run c ts with ⟨e | a, ws, us⟩
    · rfl
    · simp only [hf a us (suffix_of_run hq)]

/-- Selectors whose arguments are nested as deep as their parentheses are. -/
def anySelector : Parser Selector :=
  ⟨fun c ts => (selectorTo (ts.countP opensArgument + 1)).run c ts,
    fun c ts => (selectorTo (ts.countP opensArgument + 1)).suffix c ts⟩

section
variable {c : Context} {ts : List Token} {b : Nat}

theorem Simulation.agrees_refl_iff {α : Type} {p q : Parser α} :
    (Simulation.refl c).Agrees ts p q ↔ p.run c ts = q.run c ts := by
  unfold Agrees
  rw [Simulation.refl, Token.move_id, List.map_id]

/-- A limit to the depth makes no difference where there are fewer parentheses. -/
theorem run_anySelector (h : ts.countP opensArgument < b) :
    anySelector.run c ts = (selectorTo b).run c ts := by
  change (selectorTo (ts.countP opensArgument + 1)).run c ts = _
  have hbelow := (Simulation.refl c).selectorTo _ (Nat.le_refl _) h
  exact Simulation.agrees_refl_iff.1 (hbelow ts (Nat.lt_succ_self _))

theorem run_rules_congr {p q : Parser Selector}
    (h : ∀ us : List Token, us.countP opensArgument < b → p.run c us = q.run c us)
    (hb : ts.countP opensArgument ≤ b) : (rules p).run c ts = (rules q).run c ts :=
  Simulation.agrees_refl_iff.1 <|
    Simulation.rules (fun us hu => Simulation.agrees_refl_iff.2 (h us hu)) hb

theorem run_selector_congr {p q : Parser Selector}
    (h : ∀ us : List Token, us.countP opensArgument < b → p.run c us = q.run c us)
    (hb : ts.countP opensArgument ≤ b) :
    (do return ⟨← rules p⟩ : Parser Selector).run c ts =
      (do return ⟨← rules q⟩ : Parser Selector).run c ts := by
  rw [run_bind, run_bind, run_rules_congr h hb]

theorem anySelector_eq : anySelector = do return ⟨← rules anySelector⟩ := by
  apply Parser.ext
  funext c ts
  have hnested (us : List Token) (hu : us.countP opensArgument < ts.countP opensArgument) :
      (selectorTo (ts.countP opensArgument)).run c us = anySelector.run c us :=
    (run_anySelector hu).symm
  rw [run_anySelector (Nat.lt_succ_self _), selectorTo]
  exact run_selector_congr hnested (Nat.le_refl _)

/-- There is one parser only whose arguments are its own selectors. -/
theorem eq_anySelector_iff {p : Parser Selector} :
    (p = do return ⟨← rules p⟩) ↔ p = anySelector := by
  constructor
  · intro hp
    have hrun (c : Context) (b : Nat) :
        ∀ ts : List Token, ts.countP opensArgument < b → p.run c ts = (selectorTo b).run c ts := by
      induction b with
      | zero => exact fun ts hb => absurd hb (Nat.not_lt_zero _)
      | succ b ih =>
        intro ts hb
        rw [hp]
        exact run_selector_congr ih (Nat.le_of_lt_succ hb)
    apply Parser.ext
    funext c ts
    exact hrun c _ ts (Nat.lt_succ_self _)
  · rintro rfl
    exact anySelector_eq

theorem wholeSelector_eq : wholeSelector = closed anySelector := rfl

theorem run_closed_eq_ok {α : Type} {p : Parser α} {a : α} {us : List Token} {ws : List Warning} :
    (closed p).run c ts = ⟨.ok a, ws, us⟩ ↔ p.run c ts = ⟨.ok a, ws, []⟩ ∧ us = [] := by
  constructor
  · intro h
    rw [closed, run_bind_eq_ok] at h
    obtain ⟨a', _, vs, _, hp, h, rfl⟩ := h
    cases vs with
    | nil =>
      cases h
      exact ⟨by simpa using hp, rfl⟩
    | cons => cases h
  · rintro ⟨hp, rfl⟩
    rw [← List.append_nil ws]
    exact run_bind_of_ok hp rfl

end
end CssSelector.Parse

namespace CssSelector.Cursor

open Parse CssSelector.Parse.Parser

/-- The parser goes from the index `i` to the index `j`, and comes to `r` there. -/
def Leads {α : Type} (c : Context) (all : List Token) (p : Parser α) (i j : Nat)
    (r : Except ParseError α) : Prop :=
  ∃ us ws vs, Left all (c.front []) i us ∧ p.run c us = ⟨r, ws, vs⟩ ∧ Left all (c.front []) j vs

namespace Left
variable {all us vs : List Token} {e : Token} {i : Nat}

theorem unique (h : Left all e i us) (h' : Left all e i vs) : us = vs :=
  List.append_cancel_right (h.drop_eq.symm.trans h'.drop_eq)

theorem exists_of_suffix (h : Left all e i us) (hv : vs <:+ us) : ∃ j, Left all e j vs := by
  obtain ⟨xs, rfl⟩ := hv
  have hd := h.drop (n := xs.length) (by simp)
  rw [List.drop_left] at hd
  exact ⟨_, hd⟩

theorem drop_one (h : Left all e i us) (hi : i + 1 < all.length) :
    Left all e (i + 1) (us.drop 1) := by
  have hlength := h.length_eq
  exact h.drop (by omega)

theorem suffix_dropLast (h : Left all e i us) : us <:+ all.dropLast := by
  have hall := List.take_append_drop i all
  rw [h.drop_eq, ← List.append_assoc] at hall
  rw [← hall, List.dropLast_concat]
  exact List.suffix_append _ _

theorem countP_le (h : Left all e i us) :
    us.countP opensArgument ≤ (all.drop i).countP opensArgument := by
  rw [h.drop_eq, List.countP_append]
  exact Nat.le_add_right _ _

end Left

section
variable {α : Type} {c : Context} {all us : List Token} {p : Parser α} {i j : Nat} {a : α}
  {r : Except ParseError α}

theorem Left.exists_leads (h : Left all (c.front []) i us) (p : Parser α) :
    ∃ j r, Leads c all p i j r := by
  rcases hr : p.run c us with ⟨r, ws, vs⟩
  obtain ⟨j, hj⟩ := h.exists_of_suffix (suffix_of_run hr)
  exact ⟨j, r, us, ws, vs, h, hr, hj⟩

namespace Leads

theorem le (h : Leads c all p i j r) : i ≤ j := by
  obtain ⟨us, ws, vs, hi, hr, hj⟩ := h
  have hlength := (suffix_of_run hr).length_le
  have hi := hi.length_eq
  have hj := hj.length_eq
  omega

theorem lt_length (h : Leads c all p i j r) : j < all.length := by
  obtain ⟨us, ws, vs, -, -, hj⟩ := h
  rw [hj.length_eq]
  omega

theorem lt_of_consumes (hp : p.Consumes) (h : Leads c all p i j (.ok a)) : i < j := by
  obtain ⟨us, ws, vs, hi, hr, hj⟩ := h
  have hlength := hp hr
  have hi := hi.length_eq
  have hj := hj.length_eq
  omega

theorem exists_end {kinds : List Token.Kind} (hp : p.EndsBefore kinds)
    (h : Leads c all p i j (.ok a)) : ∃ t, all[j]? = some t ∧ t.kind ∈ kinds := by
  obtain ⟨us, ws, vs, -, hr, hj⟩ := h
  exact ⟨c.front vs, by rw [hj.getElem?_eq, head?_concat_front], hp hr⟩

theorem unique {j' : Nat} {r' : Except ParseError α} (h : Leads c all p i j r)
    (h' : Leads c all p i j' r') : j' = j ∧ r' = r := by
  obtain ⟨us, ws, vs, hi, hr, hj⟩ := h
  obtain ⟨us', ws', vs', hi', hr', hj'⟩ := h'
  obtain rfl := hi.unique hi'
  rw [hr] at hr'
  cases hr'
  have hj := hj.length_eq
  have hj' := hj'.length_eq
  exact ⟨by omega, rfl⟩

theorem selectorTo_iff {depth : Nat} (h : (all.drop i).countP opensArgument < depth)
    {r : Except ParseError Selector} :
    Leads c all (selectorTo depth) i j r ↔ Leads c all anySelector i j r := by
  have hrun {us : List Token} (hi : Left all (c.front []) i us) :
      anySelector.run c us = (selectorTo depth).run c us :=
    run_anySelector (Nat.lt_of_le_of_lt hi.countP_le h)
  constructor
  · rintro ⟨us, ws, vs, hi, hr, hj⟩
    exact ⟨us, ws, vs, hi, (hrun hi).trans hr, hj⟩
  · rintro ⟨us, ws, vs, hi, hr, hj⟩
    exact ⟨us, ws, vs, hi, (hrun hi).symm.trans hr, hj⟩

end Leads
end
end CssSelector.Cursor

namespace CssSelector.Dialect

open Parse Cursor

section
variable {d : Dialect} {text : String} {all : List Token} {i : Nat}

theorem left_zero_of_tokenize (d : Dialect) (h : tokenize text = .ok all) :
    Left all (Context.front ⟨d, text.toList⟩ []) 0 all.dropLast := by
  obtain ⟨hall, hinner⟩ := tokens_of_tokenize d h
  exact ⟨hall, rfl, hinner⟩

theorem left_of_tokenize (d : Dialect) (h : tokenize text = .ok all) (hi : i < all.length) :
    Left all (Context.front ⟨d, text.toList⟩ []) i (all.dropLast.drop i) := by
  have hzero := left_zero_of_tokenize d h
  have hlength := hzero.length_eq
  simpa using hzero.drop (n := i) (by omega)

theorem exists_endOfInput_iff (d : Dialect) (h : tokenize text = .ok all) :
    (∃ t, all[i]? = some t ∧ t.kind = .endOfInput) ↔ i + 1 = all.length := by
  constructor
  · rintro ⟨t, ht, hk⟩
    have hi := left_of_tokenize d h (List.getElem?_eq_some_iff.1 ht).1
    have hlength := hi.length_eq
    rw [hi.getElem?_eq] at ht
    cases hus : all.dropLast.drop i with
    | nil => simpa [hus] using hlength.symm
    | cons u us =>
      obtain rfl : u = t := by simpa [hus] using ht
      exact absurd hk (hi.inner u (by simp [hus]))
  · intro hlast
    have hi := left_of_tokenize d h (Nat.lt_of_lt_of_eq (Nat.lt_succ_self i) hlast)
    have hnil : all.dropLast.drop i = [] := by
      refine List.drop_eq_nil_of_le ?_
      rw [List.length_dropLast]
      omega
    refine ⟨Context.front ⟨d, text.toList⟩ [], ?_, rfl⟩
    rw [hi.getElem?_eq, hnil]
    rfl

theorem ne_depth_of_leads (h : tokenize text = .ok all) {j : Nat} {r : Except ParseError Selector}
    (hr : Leads ⟨d, text.toList⟩ all anySelector i j r) : r ≠ .error (.defect .depth) := by
  obtain ⟨us, ws, vs, hi, hrun, -⟩ := hr
  have hsafe := (Site.ofTokenize d h).selectorTo _ (Nat.le_refl _) us (Nat.lt_succ_self _)
    hi.suffix_dropLast
  rintro rfl
  change (Site.ofTokenize d h).Reports (anySelector.run ⟨d, text.toList⟩ us) at hsafe
  rw [hrun] at hsafe
  cases hsafe.error _ rfl

theorem parse_eq_ok_iff_run (h : tokenize text = .ok all) {r : Reading} :
    d.parse text = .ok r ↔
      anySelector.run ⟨d, text.toList⟩ all.dropLast = ⟨.ok r.selector, r.warnings, []⟩ := by
  have hclosed : d.parse text = .ok r ↔ ∃ us, (closed anySelector).run ⟨d, text.toList⟩ all.dropLast =
      ⟨.ok r.selector, r.warnings, us⟩ := by
    rw [parse_of_tokenize h, parseTokens, wholeSelector_eq]
    obtain ⟨s, ws⟩ := r
    rcases (closed anySelector).run ⟨d, text.toList⟩ all.dropLast with ⟨e | s', ws', us⟩ <;>
      simp [Except.map]
  rw [hclosed]
  simp only [run_closed_eq_ok, exists_and_left, exists_eq, and_true]

/-- A text is parsed where the selector that starts with it goes on to its end. -/
theorem parse_eq_ok_iff_leads (h : tokenize text = .ok all) {s : Selector} :
    (∃ ws, d.parse text = .ok ⟨s, ws⟩) ↔
      Leads ⟨d, text.toList⟩ all anySelector 0 (all.length - 1) (.ok s) := by
  have hzero := left_zero_of_tokenize d h
  have hlength := hzero.length_eq
  constructor
  · rintro ⟨ws, hp⟩
    have hlast := left_of_tokenize d h (i := all.length - 1) (by omega)
    rw [List.drop_eq_nil_of_le (by simp)] at hlast
    exact ⟨_, ws, [], hzero, (parse_eq_ok_iff_run h).1 hp, hlast⟩
  · rintro ⟨us, ws, vs, hi, hr, hj⟩
    obtain rfl := hi.unique hzero
    obtain rfl : vs = [] := by
      have hj := hj.length_eq
      exact List.eq_nil_of_length_eq_zero (by omega)
    exact ⟨ws, (parse_eq_ok_iff_run h).2 hr⟩

end

/-- The parsers of a selector on the tokens of a text, by index. Each comes to a result wherever it
starts, and goes no further than to the end of the input. Those of a compound, an attribute behind
its bracket, a name and its argument behind their colons, a rule and a selector go on with every
success, and the last two end where they should. Without any limit to the depth there is one parser
of selectors, which is the one that texts are parsed by, and a limit makes no difference to it where
it leaves one level more than there are opening parentheses ahead. -/
structure Descent (d : Dialect) (text : String) (all : List Token) : Prop where
  endOfInput : ∀ k, (∃ t, all[k]? = some t ∧ t.kind = .endOfInput) ↔ k + 1 = all.length
  total : ∀ {α : Type} (p : Parser α) (i : Nat), i < all.length →
    ∃ j r, Leads ⟨d, text.toList⟩ all p i j r
  within : ∀ {α : Type} (p : Parser α) (i j : Nat) (r : Except ParseError α),
    Leads ⟨d, text.toList⟩ all p i j r → i ≤ j ∧ j < all.length
  compound : ∀ nested i j is, Leads ⟨d, text.toList⟩ all (compound nested) i j (.ok is) → i < j
  attributeSelector : ∀ i j a,
    Leads ⟨d, text.toList⟩ all attributeSelector i j (.ok a) → i < j
  pseudo : ∀ nested category i j a,
    Leads ⟨d, text.toList⟩ all (pseudo nested category) i j (.ok a) → i < j
  rule : ∀ nested i j r, Leads ⟨d, text.toList⟩ all (rule nested) i j (.ok r) →
    i < j ∧ ∃ t, all[j]? = some t ∧ t.kind ∈ [.comma, .rightParen, .endOfInput]
  selector : ∀ depth i j s, Leads ⟨d, text.toList⟩ all (selectorTo depth) i j (.ok s) →
    i < j ∧ ∃ t, all[j]? = some t ∧ t.kind ∈ [.rightParen, .endOfInput]
  nesting : ∀ depth i j r, (all.drop i).countP opensArgument < depth →
    (Leads ⟨d, text.toList⟩ all (selectorTo depth) i j r ↔
      Leads ⟨d, text.toList⟩ all anySelector i j r)
  depth : ∀ i j r, Leads ⟨d, text.toList⟩ all anySelector i j r → r ≠ .error (.defect .depth)
  recursion : ∀ p : Parser Selector, (p = do return ⟨← rules p⟩) ↔ p = anySelector
  whole : ∀ s, (∃ ws, d.parse text = .ok ⟨s, ws⟩) ↔
    Leads ⟨d, text.toList⟩ all anySelector 0 (all.length - 1) (.ok s)

theorem descent_of_tokenize (d : Dialect) {text : String} {all : List Token}
    (h : tokenize text = .ok all) : d.Descent text all where
  endOfInput _ := exists_endOfInput_iff d h
  total p _ hi := (left_of_tokenize d h hi).exists_leads p
  within _ _ _ _ hr := ⟨hr.le, hr.lt_length⟩
  compound _ _ _ _ hr := hr.lt_of_consumes (compound_consumes _)
  attributeSelector _ _ _ hr := hr.lt_of_consumes attributeSelector_consumes
  pseudo _ _ _ _ _ hr := hr.lt_of_consumes (pseudo_consumes _ _)
  rule _ _ _ _ hr := ⟨hr.lt_of_consumes (rule_consumes _), hr.exists_end (rule_endsBefore _)⟩
  selector _ _ _ _ hr :=
    ⟨hr.lt_of_consumes (selectorTo_consumes _), hr.exists_end (selectorTo_endsBefore _)⟩
  nesting _ _ _ _ hb := Leads.selectorTo_iff hb
  depth _ _ _ hr := ne_depth_of_leads h hr
  recursion _ := eq_anySelector_iff
  whole _ := parse_eq_ok_iff_leads h

/-- The first rule in the parentheses ends before the comma, and the selector before the closing
one. Without a level for what is in them the text cannot be parsed. -/
theorem descent_in_not :
    let d : Dialect :=
      ⟨.insert .empty "not" (.required .selector), .empty, .accept, .accept, {}, {}⟩
    let all : List Token := [⟨.colon, ":", 0⟩, ⟨.ident, "not", 1⟩, ⟨.leftParen, "(", 4⟩,
      ⟨.ident, "a", 5⟩, ⟨.comma, ",", 6⟩, ⟨.ident, "b", 7⟩, ⟨.rightParen, ")", 8⟩,
      ⟨.endOfInput, "", 9⟩]
    let c : Context := ⟨d, ":not(a,b)".toList⟩
    let inner : Selector := ⟨[⟨[.tagName "a"]⟩, ⟨[.tagName "b"]⟩]⟩
    let whole : Selector := ⟨[⟨[.pseudo .pseudoClass "not" (some (.selector inner))]⟩]⟩
    tokenize ":not(a,b)" = .ok all ∧ d.Descent ":not(a,b)" all ∧
      Leads c all (rule anySelector) 3 4 (.ok ⟨[.tagName "a"]⟩) ∧
      Leads c all anySelector 3 6 (.ok inner) ∧ Leads c all anySelector 0 7 (.ok whole) ∧
      Leads c all (selectorTo 1) 0 3 (.error (.defect .depth)) := by
  intro d all c inner whole
  have h : tokenize ":not(a,b)" = .ok all := by cbv
  have hleft {i : Nat} (hi : i < all.length) := left_of_tokenize d h hi
  refine ⟨h, descent_of_tokenize d h, ?_, ?_, ?_, ?_⟩
  · exact ⟨_, [], _, hleft (by decide), by cbv, hleft (by decide)⟩
  · exact ⟨_, [], _, hleft (by decide), by cbv, hleft (by decide)⟩
  · exact ⟨_, [], _, hleft (by decide), by cbv, hleft (by decide)⟩
  · exact ⟨_, [], _, hleft (by decide), by cbv, hleft (by decide)⟩

end CssSelector.Dialect
