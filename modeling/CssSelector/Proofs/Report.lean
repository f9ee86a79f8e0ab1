import CssSelector.Proofs.Reads.Formula
import CssSelector.Proofs.Reads.Loose
import CssSelector.Proofs.Simulation
import CssSelector.Proofs.Tokens

/-!
What a run reports. Of the tokens of a text a parser reports nothing but flaws that a text can have,
each of them at a token or at the end, and warnings at tokens (`Site.wholeSelector`). So no name that
it builds is empty, no numeral goes unread, and no slice of the source is out of bounds.
-/

set_option autoImplicit false

namespace CssSelector

/-- The parser makes sure of an argument before it reads one, and a numeral is what the lexer says
it is. -/
def Flaw.Possible : Flaw → Prop
  | .unexpectedArgument | .invalidNumber _ => False
  | _ => True

namespace Parse

open CssSelector.Parse.Parser Text

/-- A source with its tokens, of which the end of the input is kept apart. -/
structure Site where
  context : Context
  tokens : List Token
  lexed : Lexed context.source (tokens ++ [context.front []])

namespace Site

def At (S : Site) (n : Nat) : Prop := ∃ t ∈ S.tokens ++ [S.context.front []], t.position = n

inductive Allows (S : Site) : ParseError → Prop
  | unknown (f : Feature) : S.Allows (.unknown f)
  | malformed {flaw : Flaw} {n : Nat} (possible : flaw.Possible) (place : S.At n) :
    S.Allows (.malformed flaw n)

structure Reports {α : Type} (S : Site) (s : Step α) : Prop where
  error : ∀ e, s.result = .error e → S.Allows e
  warning : ∀ w ∈ s.warnings, ∃ t ∈ S.tokens, t.position = w.position

theorem Reports.ok {α : Type} {S : Site} (a : α) (us : List Token) :
    S.Reports (⟨.ok a, [], us⟩ : Step α) := by
  constructor <;> simp

def Safe {α : Type} (S : Site) (us : List Token) (p : Parser α) : Prop :=
  us <:+ S.tokens → S.Reports (p.run S.context us)

section
variable {S : Site} {us vs : List Token}

theorem at_of_mem {t : Token} (h : t ∈ S.tokens) : S.At t.position :=
  ⟨t, List.mem_append_left _ h, rfl⟩

theorem front_mem (h : us <:+ S.tokens) :
    S.context.front us ∈ S.tokens ++ [S.context.front []] := by
  cases us with
  | nil => simp
  | cons t us => exact List.mem_append_left _ (h.subset List.mem_cons_self)

theorem at_front (h : us <:+ S.tokens) : S.At (S.context.front us).position :=
  ⟨_, front_mem h, rfl⟩

theorem front_mem_of_kind (h : us <:+ S.tokens) {kind : Token.Kind}
    (hk : (S.context.front us).kind = kind) (hne : kind ≠ .endOfInput) :
    S.context.front us ∈ S.tokens := by
  cases us with
  | nil => exact absurd hk.symm hne
  | cons t us => exact h.subset List.mem_cons_self

theorem proper {t : Token} (h : t ∈ S.tokens) : t.Proper :=
  S.lexed.proper t (List.mem_append_left _ h)

theorem before_front (h : us <:+ S.tokens) (hv : vs <:+ us) :
    (S.context.front us).Before S.context.source (S.context.front vs) := by
  obtain ⟨before, htokens⟩ := h
  have hl : Lexed S.context.source (us ++ [S.context.front []]) := by
    have hl := S.lexed
    rw [← htokens, List.append_assoc] at hl
    exact hl.right
  obtain ⟨xs, rfl⟩ := hv
  cases xs with
  | nil => exact hl.placed _ (front_mem (S := ⟨S.context, _, hl⟩) List.suffix_rfl)
  | cons t xs =>
    refine (List.pairwise_cons.1 hl.ordered).1 _ ?_
    exact (front_mem (S := ⟨S.context, xs ++ vs, hl.tail⟩) (List.suffix_append xs vs))

end

namespace Safe
variable {α β : Type} {S : Site} {us : List Token} {p : Parser α} {f : α → Parser β}

protected theorem pure (a : α) : S.Safe us (pure a : Parser α) := fun _ => .ok a us

protected theorem fail {e : ParseError} (h : us <:+ S.tokens → S.Allows e) :
    S.Safe us (fail e : Parser α) := fun hu => by
  constructor
  · intro e' he
    cases he
    exact h hu
  · simp

protected theorem bind (h : S.Safe us p) (k : ∀ a vs, vs <:+ us → S.Safe vs (f a)) :
    S.Safe us (p >>= f) := by
  intro hu
  obtain ⟨he, hw⟩ := h hu
  have hsuffix := p.suffix S.context us
  rcases hr : p.run S.context us with ⟨e | a, ws, vs⟩
  · rw [hr] at he hw
    rw [run_bind_error hr]
    exact ⟨fun e' he' => he e' (by cases he'; rfl), hw⟩
  · rw [hr] at hw hsuffix
    obtain ⟨ke, kw⟩ := k a vs hsuffix (hsuffix.trans hu)
    rw [run_bind_ok hr]
    refine ⟨ke, fun w hm => ?_⟩
    exact (List.mem_append.1 hm).elim (hw w) (kw w)

theorem map (h : S.Safe us p) (f : α → β) : S.Safe us (do return f (← p)) :=
  .bind h fun _ _ _ => .pure _

theorem front_bind {f : Token → Parser β}
    (h : us <:+ S.tokens → S.Safe us (f (S.context.front us))) : S.Safe us (front >>= f) :=
  fun hu => h hu hu

theorem ahead_bind {f : List Token → Parser β} (h : us <:+ S.tokens → S.Safe us (f us)) :
    S.Safe us (ahead >>= f) := fun hu => h hu hu

theorem context_bind {f : Context → Parser β} (h : S.Safe us (f S.context)) :
    S.Safe us (Parser.context >>= f) := h

theorem skip_bind {n : Nat} {f : Unit → Parser β} (h : S.Safe (us.drop n) (f ())) :
    S.Safe us (skip n >>= f) :=
  fun hu => h ((List.drop_suffix n us).trans hu)

theorem skipSpace_bind {f : Unit → Parser β} (h : S.Safe (us.dropWhile Token.isSpace) (f ())) :
    S.Safe us (skipSpace >>= f) :=
  fun hu => h ((List.dropWhile_suffix Token.isSpace).trans hu)

theorem judge {x : Feature} {t : Token} (ht : t ∈ S.tokens) : S.Safe us (judge x t.position) := by
  refine .context_bind ?_
  dsimp only
  split
  · exact .pure ()
  · split
    · exact .fail fun _ => .unknown x
    · exact .pure ()
    · refine fun _ => ⟨by simp, fun w hw => ⟨t, ht, ?_⟩⟩
      cases List.mem_singleton.1 hw
      rfl

theorem failAt {t : Token} {flaw : String → Flaw} (hp : (flaw t.describe).Possible)
    (ht : us <:+ S.tokens → S.At t.position) : S.Safe us (failAt t flaw : Parser α) :=
  .fail fun hu => .malformed hp (ht hu)

theorem expected (what : Expectation) : S.Safe us (expected what : Parser α) :=
  .front_bind fun _ => .failAt trivial at_front

theorem unexpected : S.Safe us (unexpected : Parser α) :=
  .front_bind fun _ => .failAt trivial at_front

theorem expected_bind (what : Expectation) (f : α → Parser β) :
    S.Safe us (Parser.expected what >>= f) := by
  intro hu
  have h : S.Safe us (Parser.expected what : Parser β) := expected what
  rw [run_bind_error (run_expected what)]
  exact h hu

theorem expect_bind {kind : Token.Kind} {what : Expectation} {f : Token → Parser β}
    (hk : kind ≠ .endOfInput) (h : ∀ t ∈ S.tokens, t.kind = kind → S.Safe (us.drop 1) (f t)) :
    S.Safe us (expect kind what >>= f) := by
  unfold expect
  rw [bind_assoc]
  refine .front_bind fun hu => ?_
  split
  next ht =>
    rw [bind_assoc]
    exact .skip_bind (h _ (front_mem_of_kind hu ht hk) ht)
  next => exact .expected_bind what _

theorem written {t u : Token} (h : us <:+ S.tokens → t.Before S.context.source u) :
    S.Safe us (written t.position u.position) := by
  intro hu
  obtain ⟨text, ht⟩ := Option.isSome_iff_exists.1 (h hu)
  rw [run_written_eq_ok.2 ⟨ht, rfl, rfl⟩]
  exact .ok text us

theorem built {e : EmptyName} {name : String} (h : name ≠ "") (f : String → α) :
    S.Safe us (built ((e.check name).map f)) := by
  rw [EmptyName.check, if_neg h]
  exact .pure _

theorem manyFrom {next : Option α → Token → Option (Parser (Option α))}
    (h : ∀ previous t vs, t :: vs <:+ us → t ∈ S.tokens → ∀ p ∈ next previous t, S.Safe vs p)
    (previous : Option α) : S.Safe us (Parser.manyFrom next previous) := by
  induction hn : us.length using Nat.strongRecOn generalizing previous us with
  | _ n ih =>
    intro hu
    cases us with
    | nil =>
      rw [run_manyFrom_nil]
      exact .ok [] []
    | cons t vs =>
      have ht := hu.subset List.mem_cons_self
      cases hp : next previous t with
      | none =>
        rw [run_manyFrom_stop hp]
        exact .ok [] (t :: vs)
      | some p =>
        rw [run_manyFrom_cons hp]
        refine Safe.bind (h previous t vs List.suffix_rfl ht p hp) (fun o xs hx => ?_)
          ((List.suffix_cons t vs).trans hu)
        cases o with
        | none => exact .pure []
        | some a =>
          have hlt : xs.length < n := by
            have hle := hx.length_le
            rw [List.length_cons] at hn
            omega
          refine .map (ih _ hlt (fun previous u ws hw => ?_) (some a) rfl) (a :: ·)
          exact h previous u ws (hw.trans (hx.trans (List.suffix_cons t vs)))

theorem many {next : Option α → Token → Option (Parser (Option α))}
    (h : ∀ previous t vs, t :: vs <:+ us → t ∈ S.tokens → ∀ p ∈ next previous t, S.Safe vs p) :
    S.Safe us (Parser.many next) := manyFrom h none

end Safe

open Safe

section
variable {S : Site} {us : List Token}

theorem name_ne {t : Token} (h : t ∈ S.tokens) (hk : t.kind = .ident) : t.text ≠ "" :=
  (proper h).name (.inl hk)

theorem attributeValue : S.Safe us attributeValue := by
  refine .front_bind fun _ => ?_
  split
  · exact .skip_bind (.pure _)
  · exact .expected _

theorem attributeModifier : S.Safe us attributeModifier := by
  refine .front_bind fun hu => ?_
  split
  next hk =>
    have ht := front_mem_of_kind hu hk (by decide)
    exact .skip_bind (.bind (.judge ht) fun _ vs _ => .skipSpace_bind (.pure _))
  next => exact .pure none

theorem comparison {name : String} (hname : name ≠ "") {t : Token} (ht : t ∈ S.tokens)
    (hk : t.kind = .attributeOperator) : S.Safe us (comparison name t) := by
  obtain ⟨op, hop⟩ := Option.isSome_iff_exists.1 ((proper ht).operator hk)
  unfold Parse.comparison
  rw [hop]
  refine .bind (.judge ht) fun _ vs _ => .skipSpace_bind (.bind attributeValue fun _ vs _ => ?_)
  refine .skipSpace_bind (.bind attributeModifier fun _ vs _ => ?_)
  rw [discard_bind]
  exact .expect_bind (by decide) fun _ _ _ => .built hname _

theorem attributeSelector : S.Safe us attributeSelector := by
  refine .skipSpace_bind (.expect_bind (by decide) fun name hn hk => .skipSpace_bind ?_)
  refine .front_bind fun hu => ?_
  split
  · exact .skip_bind (.built (name_ne hn hk) _)
  next ho =>
    exact .skip_bind (comparison (name_ne hn hk) (front_mem_of_kind hu ho (by decide)) ho)
  · exact .expected _

theorem invalidFormula (text : List Char) {n : Nat} (h : us <:+ S.tokens → S.At n) :
    S.Safe us (invalidFormula text n) :=
  .fail fun hu => .malformed trivial (h hu)

/-- Where a formula has a token that cannot stand in one, it goes on behind its first white space. -/
theorem drop_suffix_of_formulaRun {limit : Option Nat} {depth : Nat} {r : FormulaRun}
    (h : formulaRun limit depth us = some r) (hr : r.text = none) :
    us.drop r.length <:+ us.dropWhile Token.isSpace := by
  induction us generalizing limit r with
  | nil => simp
  | cons t us ih =>
    cases ht : t.isSpace with
    | false => simpa [ht] using List.drop_suffix r.length (t :: us)
    | true =>
      have hk : t.kind = .whitespace := by simpa [Token.isSpace] using ht
      by_cases hl : limit = some 0
      · have hempty : FormulaRun.empty = r := by simpa [formulaRun, hl] using h
        rw [← hempty] at hr
        contradiction
      · rw [formulaRun_cons (by simp [hk]) (by simp [hk]) hl] at h
        obtain ⟨q, hq, rfl⟩ := Option.map_eq_some_iff.1 h
        have hqr : q.text = none := by
          cases htext : q.text with
          | none => rfl
          | some text => simp [FormulaRun.push, formulaText?, hk, htext] at hr
        simpa [ht, FormulaRun.push] using ih hq hqr

theorem formula {start : Nat} (hstart : S.At start) (limit : Option Nat) :
    S.Safe us (formula start limit) := by
  refine .ahead_bind fun hu => ?_
  split
  · exact .fail fun _ => .malformed trivial hstart
  next run hrun =>
    have hspace := (List.dropWhile_suffix Token.isSpace).trans hu
    refine .context_bind (.skip_bind ?_)
    split
    · split
      · exact .pure _
      · exact invalidFormula _ fun _ => at_front hspace
    next hnone =>
      have hdrop := drop_suffix_of_formulaRun hrun hnone
      refine .front_bind fun _ => .bind (.written fun _ => before_front hspace hdrop) ?_
      exact fun text vs _ => invalidFormula text fun _ => at_front hspace

theorem literal_bind {β : Type} {kind : Token.Kind} (hk : kind ≠ .endOfInput) {what : Expectation}
    {f : Token → Parser β} (h : ∀ t ∈ S.tokens, t.kind = kind → ∀ vs, S.Safe vs (f t)) :
    S.Safe us (literal kind what >>= f) := by
  simp only [literal, bind_assoc, pure_bind]
  exact .skipSpace_bind (.expect_bind hk fun t ht hkind => .skipSpace_bind (h t ht hkind _))

theorem number : S.Safe us number := by
  refine literal_bind (by decide) fun t ht hk vs => ?_
  obtain ⟨x, hx⟩ := Option.isSome_iff_exists.1 ((proper ht).numeral hk)
  rw [hx]
  exact .pure x

theorem looseArgument : S.Safe us looseArgument := by
  refine .front_bind fun hu => ?_
  split
  · refine .skip_bind (.ahead_bind fun hv => ?_)
    split
    · exact .fail fun _ => .malformed trivial (at_front hu)
    next n _ =>
      refine .front_bind fun _ => .skip_bind (.front_bind fun _ => ?_)
      refine .bind (.written fun _ => before_front hv (List.drop_suffix n _)) ?_
      exact fun _ vs _ => .skip_bind (.pure _)
  · exact .pure none

end

section
variable {S : Site} {us : List Token} {nested : Parser Selector} {b : Nat}

/-- Selectors are safe to parse where fewer than `b` opening parentheses are to come. -/
def SafeBelow (S : Site) (b : Nat) (nested : Parser Selector) : Prop :=
  ∀ us, us.countP opensArgument < b → S.Safe us nested

theorem formulaOfSelector (hn : S.SafeBelow b nested) (hb : us.countP opensArgument < b)
    {start : Nat} (hstart : S.At start) : S.Safe us (formulaOfSelector nested start) := by
  refine .ahead_bind fun _ => ?_
  split
  · exact .map (formula hstart none) _
  · refine .bind (formula hstart _) fun f vs hv => .skip_bind (.map (hn _ ?_) _)
    have hs := (List.drop_suffix 1 vs).trans hv
    exact Nat.lt_of_le_of_lt hs.sublist.countP_le hb

theorem argumentBody (hn : S.SafeBelow b nested) (hb : us.countP opensArgument < b) {start : Nat}
    (hstart : S.At start) {g : ArgumentGrammar} (hg : g ≠ .noArgument) :
    S.Safe us (argumentBody nested start g) := by
  cases g with
  | noArgument => contradiction
  | selector => exact .map (hn us hb) _
  | formula => exact .map (formula hstart none) _
  | formulaOfSelector => exact formulaOfSelector hn hb hstart
  | string => exact literal_bind (by decide) fun t _ _ vs => .pure _
  | identifier => exact literal_bind (by decide) fun t _ _ vs => .pure _
  | number => exact .map number _

theorem knownArgument (hn : S.SafeBelow b nested) (hb : us.countP opensArgument ≤ b)
    (category : Category) (name : String) (s : Signature) :
    S.Safe us (knownArgument nested category name s) := by
  refine .front_bind fun hu => ?_
  split
  next ho =>
    refine .skip_bind ?_
    have hlt := countP_drop_one_lt ho hb
    split
    · exact .fail fun _ => .malformed trivial (at_front hu)
    · exact .fail fun _ => .malformed trivial (at_front hu)
    next g hg _ =>
      refine .bind (argumentBody hn hlt (at_front hu) hg) fun a vs _ => ?_
      rw [discard_bind]
      exact .expect_bind (by decide) fun _ _ _ => .pure _
  next =>
    split
    · exact .pure none
    · exact .fail fun _ => .malformed trivial (at_front hu)

theorem pseudoArgument (hn : S.SafeBelow b nested) (hb : us.countP opensArgument ≤ b)
    (category : Category) {t : Token} (ht : t ∈ S.tokens) :
    S.Safe us (pseudoArgument nested category t) := by
  refine .context_bind ?_
  split
  · exact knownArgument hn hb _ _ _
  · exact .bind (.judge ht) fun _ vs _ => looseArgument

theorem pseudo (hn : S.SafeBelow b nested) (hb : us.countP opensArgument ≤ b)
    (category : Category) : S.Safe us (pseudo nested category) := by
  refine .expect_bind (by decide) fun t ht hk => ?_
  refine .bind (pseudoArgument hn ?_ category ht) fun a vs _ => .built (name_ne ht hk) _
  exact countP_le (List.drop_suffix 1 us) hb

theorem simple (hn : S.SafeBelow b nested) (hb : us.countP opensArgument ≤ b) {t : Token}
    (ht : t ∈ S.tokens) {k : ItemStart} (hk : t.kind = k.kind) :
    S.Safe us (simple nested t k) := by
  cases k with
  | tagName => exact .built (name_ne ht hk) _
  | universal => exact .pure _
  | className =>
    exact .expect_bind (by decide) fun u hu huk => .built (name_ne hu huk) _
  | idName => exact .built ((proper ht).name (.inr hk)) _
  | «attribute» => exact attributeSelector
  | pseudo category => exact pseudo hn hb category

theorem checkOrder (previous : Option Item) {t : Token} (ht : t ∈ S.tokens) (k : ItemStart) :
    S.Safe us (checkOrder previous t k) := by
  have hat := at_of_mem ht
  unfold Parse.checkOrder
  split
  · exact .fail fun _ => .malformed trivial hat
  · exact .failAt trivial fun _ => hat
  · exact .failAt trivial fun _ => hat
  · exact .pure ()

theorem compound (hn : S.SafeBelow b nested) (hb : us.countP opensArgument ≤ b) :
    S.Safe us (compound nested) := by
  refine .bind (.many fun previous t vs hv ht p hp => ?_) fun is vs _ => ?_
  · obtain ⟨k, hk, rfl⟩ := Option.map_eq_some_iff.1 hp
    rw [Token.Kind.itemStart?_eq_some] at hk
    refine .bind (checkOrder previous ht k) fun _ ws hw => .map (simple hn ?_ ht hk) _
    exact countP_le hw (countP_le_of_cons hv hb)
  · split
    · exact .expected _
    · exact .pure is

theorem link (hn : S.SafeBelow b nested) (hb : us.countP opensArgument ≤ b) (k : Combinator)
    {t : Token} (ht : t ∈ S.tokens) : S.Safe us (link nested k t.position) := by
  refine .bind (.judge ht) fun _ vs hv => .skipSpace_bind (.map (compound hn ?_) _)
  exact countP_le ((List.dropWhile_suffix _).trans hv) hb

theorem explicitLink (hn : S.SafeBelow b nested) (hb : us.countP opensArgument ≤ b) {t : Token}
    (ht : t ∈ S.tokens) (hk : t.kind = .combinator) : S.Safe us (explicitLink nested t) := by
  obtain ⟨k, hsymbol⟩ := Option.isSome_iff_exists.1 ((proper ht).combinator hk)
  unfold Parse.explicitLink
  rw [hsymbol]
  exact link hn hb k ht

theorem spacedLink (hn : S.SafeBelow b nested) (hb : us.countP opensArgument ≤ b) :
    S.Safe us (spacedLink nested) := by
  have hs := countP_le (List.dropWhile_suffix Token.isSpace) hb
  refine .skipSpace_bind (.front_bind fun hu => ?_)
  split
  · exact .pure none
  · exact .pure none
  · exact .pure none
  next hk =>
    have ht := front_mem_of_kind hu hk (by decide)
    exact .skip_bind (.map (explicitLink hn (countP_le (List.drop_suffix _ _) hs) ht hk) _)
  next hk _ => exact .map (link hn hs _ (front_mem_of_kind hu rfl hk)) _

theorem linkAt (hn : S.SafeBelow b nested) (hb : us.countP opensArgument ≤ b) {t : Token}
    (ht : t ∈ S.tokens) : ∀ p ∈ linkAt nested t, S.Safe us p := by
  intro p hp
  unfold Parse.linkAt at hp
  split at hp <;> cases hp
  · exact spacedLink hn hb
  next hk => exact .map (explicitLink hn hb ht hk) _
  · exact .failAt trivial fun _ => at_of_mem ht

theorem spacedRule (hn : S.SafeBelow b nested) (hb : us.countP opensArgument ≤ b) :
    S.Safe us (spacedRule nested) := by
  have hs := countP_le (List.dropWhile_suffix Token.isSpace) hb
  refine .skipSpace_bind (.bind (compound hn hs) fun is vs hv => .map (.many ?_) _)
  exact fun _ t ws hw ht => linkAt hn (countP_le_of_cons hw (countP_le hv hs)) ht

theorem rules (hn : S.SafeBelow b nested) (hb : us.countP opensArgument ≤ b) :
    S.Safe us (rules nested) := by
  refine .bind (spacedRule hn hb) fun r vs hv => .map (.many fun _ t ws hw _ p hp => ?_) _
  unfold ruleAt at hp
  split at hp
  · cases hp
    exact .map (spacedRule hn (countP_le_of_cons hw (countP_le hv hb))) _
  · contradiction

end

/-- The depth of selectors is never used up. -/
theorem selectorTo (S : Site) (b : Nat) {depth : Nat} (h : b ≤ depth) :
    S.SafeBelow b (selectorTo depth) := by
  induction b generalizing depth with
  | zero => exact fun _ hb => absurd hb (Nat.not_lt_zero _)
  | succ b ih =>
    cases depth with
    | zero => contradiction
    | succ depth =>
      exact fun us hb => .map (rules (ih (Nat.le_of_succ_le_succ h)) (Nat.le_of_lt_succ hb)) _

theorem wholeSelector (S : Site) : S.Reports (wholeSelector.run S.context S.tokens) := by
  refine Safe.ahead_bind (fun _ => .bind (S.selectorTo _ (Nat.le_refl _) _ (Nat.lt_succ_self _))
    fun s vs _ => .ahead_bind fun _ => ?_) List.suffix_rfl
  split
  · exact .pure s
  · exact .unexpected

end Site
end Parse
end CssSelector
