import CssSelector.Parse.Selector
import CssSelector.Proofs.Move

/-!
Two runs side by side. The parsers of selectors treat a context, and the tokens in it, in the same
way whatever their dialect does about a construct that is not recognised, and wherever the tokens
are. So a relation between the steps of two contexts that parsers in sequence keep is kept by all
runs (`Simulation.selectorTo`).
-/

set_option autoImplicit false

namespace CssSelector.Parse

open CssSelector.Parse.Parser Text

/-- A relation `Rel` between what parsers come to in two contexts. The tokens on the right are those
on the left, with their offsets moved. -/
structure Simulation where
  left : Context
  right : Context
  place : Nat → Nat
  Rel : {α : Type} → Step α → Step α → Prop
  signature : ∀ category name,
    right.dialect.signature? category name = left.dialect.signature? category name
  size : byteSize right.source = place (byteSize left.source)
  slice : ∀ start stop,
    slice? right.source (place start) (place stop) = slice? left.source start stop
  ok : ∀ {α : Type} (a : α) ts, Rel ⟨.ok a, [], ts⟩ ⟨.ok a, [], ts.map (Token.move place)⟩
  error : ∀ {α : Type} e ts, @Rel α ⟨.error e, [], ts⟩
    ⟨.error (e.move place), [], ts.map (Token.move place)⟩
  judged : ∀ f n ts, Rel ((judge f n).run left ts)
    ((judge f (place n)).run right (ts.map (Token.move place)))
  chained : ∀ {α β : Type} {p q : Parser α} {f g : α → Parser β} {ts : List Token},
    Rel (p.run left ts) (q.run right (ts.map (Token.move place))) →
    (∀ a us, us <:+ ts → Rel ((f a).run left us) ((g a).run right (us.map (Token.move place)))) →
    Rel ((p >>= f).run left ts) ((q >>= g).run right (ts.map (Token.move place)))

section
variable (f : Nat → Nat)

theorem closing?_move (depth : Nat) (ts : List Token) :
    closing? depth (ts.map (Token.move f)) = closing? depth ts := by
  induction ts generalizing depth with
  | nil => rfl
  | cons t ts ih => simp [closing?, ih]

theorem formulaRun_move (limit : Option Nat) (depth : Nat) (ts : List Token) :
    formulaRun limit depth (ts.map (Token.move f)) = formulaRun limit depth ts := by
  have hpush (t : Token) : FormulaRun.push (t.move f) = FormulaRun.push t := rfl
  induction ts generalizing limit depth with
  | nil => rfl
  | cons t ts ih => simp [formulaRun, ih, hpush]

theorem ofKeyword?_move (previous : Token.Kind) (depth : Nat) (ts : List Token) :
    ofKeyword? previous depth (ts.map (Token.move f)) = ofKeyword? previous depth ts := by
  induction ts generalizing previous depth with
  | nil => rfl
  | cons t ts ih => simp [ofKeyword?, ih]

end

theorem dropWhile_isSpace_map (f : Nat → Nat) (ts : List Token) :
    (ts.map (Token.move f)).dropWhile Token.isSpace =
      (ts.dropWhile Token.isSpace).map (Token.move f) := by
  rw [List.dropWhile_map]
  rfl

section
variable {ts us : List Token} {b : Nat}

theorem countP_le (h : us <:+ ts) (hb : ts.countP opensArgument ≤ b) :
    us.countP opensArgument ≤ b :=
  Nat.le_trans h.sublist.countP_le hb

theorem countP_le_of_cons {t : Token} (h : t :: us <:+ ts) (hb : ts.countP opensArgument ≤ b) :
    us.countP opensArgument ≤ b :=
  countP_le ((List.suffix_cons t us).trans h) hb

theorem countP_drop_one_lt {c : Context} (ho : (c.front ts).kind = .leftParen)
    (hb : ts.countP opensArgument ≤ b) : (ts.drop 1).countP opensArgument < b := by
  cases ts with
  | nil => contradiction
  | cons t ts =>
    have hc : opensArgument t := by simpa [opensArgument] using ho
    rw [List.countP_cons_of_pos hc] at hb
    exact hb

end

def closed {α : Type} (p : Parser α) : Parser α := do
  let a ← p
  if (← ahead).isEmpty then return a else unexpected

theorem run_wholeSelector (c : Context) (ts : List Token) : wholeSelector.run c ts =
    (closed (selectorTo (ts.countP opensArgument + 1))).run c ts := rfl

namespace Simulation
variable {α β : Type} (S : Simulation)

/-- The runs of two parsers on the same tokens are related. -/
def Agrees (ts : List Token) (p q : Parser α) : Prop :=
  S.Rel (p.run S.left ts) (q.run S.right (ts.map (Token.move S.place)))

variable {S} {ts : List Token} {p q : Parser α} {f g : α → Parser β}

theorem front_right (S : Simulation) (ts : List Token) :
    S.right.front (ts.map (Token.move S.place)) = (S.left.front ts).move S.place := by
  cases ts with
  | nil => exact congrArg (Token.mk .endOfInput "") S.size
  | cons => rfl

def AgreesBelow (S : Simulation) (b : Nat) (nested nested' : Parser Selector) : Prop :=
  ∀ ts, ts.countP opensArgument < b → S.Agrees ts nested nested'

namespace Agrees

protected theorem pure (a : α) : S.Agrees ts (pure a) (pure a) := S.ok a ts

protected theorem fail (e : ParseError) :
    S.Agrees ts (fail e : Parser α) (fail (e.move S.place)) := S.error e ts

protected theorem bind (h : S.Agrees ts p q) (k : ∀ a us, us <:+ ts → S.Agrees us (f a) (g a)) :
    S.Agrees ts (p >>= f) (q >>= g) := S.chained h k

theorem map (h : S.Agrees ts p q) (f : α → β) :
    S.Agrees ts (do return f (← p)) (do return f (← q)) :=
  .bind h fun _ _ _ => .pure _

theorem judge_bind {x : Feature} {n : Nat} {f g : Unit → Parser β}
    (k : ∀ us, us <:+ ts → S.Agrees us (f ()) (g ())) :
    S.Agrees ts (judge x n >>= f) (judge x (S.place n) >>= g) :=
  .bind (S.judged x n ts) fun _ => k

theorem front_bind {f g : Token → Parser β}
    (h : S.Agrees ts (f (S.left.front ts)) (g ((S.left.front ts).move S.place))) :
    S.Agrees ts (front >>= f) (front >>= g) := by
  rw [← S.front_right] at h
  exact h

theorem ahead_bind {f g : List Token → Parser β}
    (h : S.Agrees ts (f ts) (g (ts.map (Token.move S.place)))) :
    S.Agrees ts (ahead >>= f) (ahead >>= g) := h

theorem context_bind {f g : Context → Parser β} (h : S.Agrees ts (f S.left) (g S.right)) :
    S.Agrees ts (context >>= f) (context >>= g) := h

theorem skip_bind {n : Nat} {f g : Unit → Parser β} (h : S.Agrees (ts.drop n) (f ()) (g ())) :
    S.Agrees ts (skip n >>= f) (skip n >>= g) := by
  unfold Agrees at h
  rw [List.map_drop] at h
  exact h

theorem skipSpace_bind {f g : Unit → Parser β}
    (h : S.Agrees (ts.dropWhile Token.isSpace) (f ()) (g ())) :
    S.Agrees ts (skipSpace >>= f) (skipSpace >>= g) := by
  unfold Agrees at h
  rw [← dropWhile_isSpace_map] at h
  exact h

theorem written (start stop : Nat) :
    S.Agrees ts (written start stop) (written (S.place start) (S.place stop)) := by
  refine .context_bind ?_
  rw [S.slice]
  cases slice? S.left.source start stop with
  | none => exact .fail _
  | some text => exact .pure _

theorem built (x : Except EmptyName α) : S.Agrees ts (built x) (built x) := by
  cases x with
  | error e => exact .fail _
  | ok a => exact .pure _

theorem expected (what : Expectation) :
    S.Agrees ts (expected what : Parser α) (expected what) := .front_bind (.fail _)

theorem unexpected : S.Agrees ts (unexpected : Parser α) unexpected := .front_bind (.fail _)

theorem expected_bind (what : Expectation) (f g : α → Parser β) :
    S.Agrees ts (Parser.expected what >>= f) (Parser.expected what >>= g) := by
  have h : S.Agrees ts (Parser.expected what : Parser β) (Parser.expected what) := expected what
  unfold Agrees at h ⊢
  rwa [run_bind_error (run_expected what), run_bind_error (run_expected what)]

theorem expect_bind {kind : Token.Kind} {what : Expectation} {f g : Token → Parser β}
    (h : ∀ t, S.Agrees (ts.drop 1) (f t) (g (t.move S.place))) :
    S.Agrees ts (expect kind what >>= f) (expect kind what >>= g) := by
  unfold expect
  rw [bind_assoc, bind_assoc]
  refine .front_bind ?_
  rw [Token.kind_move]
  split
  · rw [bind_assoc, bind_assoc]
    exact .skip_bind (h _)
  · exact .expected_bind what f g

theorem manyFrom {next next' : Option α → Token → Option (Parser (Option α))}
    (h : ∀ previous t us, t :: us <:+ ts →
      Option.Rel (S.Agrees us) (next previous t) (next' previous (t.move S.place)))
    (previous : Option α) :
    S.Agrees ts (Parser.manyFrom next previous) (Parser.manyFrom next' previous) := by
  induction hn : ts.length using Nat.strongRecOn generalizing previous ts with
  | _ n ih =>
    cases ts with
    | nil =>
      unfold Agrees
      rw [List.map_nil, run_manyFrom_nil, run_manyFrom_nil]
      exact S.ok [] []
    | cons t us =>
      have ht := h previous t us List.suffix_rfl
      generalize hp : next previous t = o at ht
      generalize hq : next' previous (t.move S.place) = o' at ht
      unfold Agrees
      rw [List.map_cons]
      cases ht with
      | none =>
        rw [run_manyFrom_stop hp, run_manyFrom_stop hq]
        exact S.ok [] (t :: us)
      | some hpq =>
        rw [run_manyFrom_cons hp, run_manyFrom_cons hq]
        refine Agrees.bind hpq fun o vs hv => ?_
        cases o with
        | none => exact .pure []
        | some a =>
          have hlt : vs.length < n := by
            have hle := hv.length_le
            rw [List.length_cons] at hn
            omega
          refine Agrees.map (ih _ hlt (fun previous u ws hw => ?_) (some a) rfl) (a :: ·)
          exact h previous u ws (hw.trans (hv.trans (List.suffix_cons t us)))

theorem many {next next' : Option α → Token → Option (Parser (Option α))}
    (h : ∀ previous t us, t :: us <:+ ts →
      Option.Rel (S.Agrees us) (next previous t) (next' previous (t.move S.place))) :
    S.Agrees ts (Parser.many next) (Parser.many next') := manyFrom h none

end Agrees

/-! The parsers of selectors, from the small ones on. -/

open Agrees

theorem attributeValue : S.Agrees ts attributeValue attributeValue := by
  refine .front_bind ?_
  rw [Token.kind_move]
  split
  · exact .skip_bind (.pure _)
  · exact .expected _

theorem attributeModifier : S.Agrees ts attributeModifier attributeModifier := by
  refine .front_bind ?_
  rw [Token.kind_move]
  split
  · exact .skip_bind (.judge_bind fun us _ => .skipSpace_bind (.pure _))
  · exact .pure none

theorem comparison (name : String) (t : Token) :
    S.Agrees ts (comparison name t) (comparison name (t.move S.place)) := by
  unfold Parse.comparison
  rw [Token.text_move]
  split
  · exact .fail _
  · refine .judge_bind fun us _ => .skipSpace_bind (.bind attributeValue fun value us _ => ?_)
    refine .skipSpace_bind (.bind attributeModifier fun modifier us _ => ?_)
    rw [discard_bind]
    exact .expect_bind fun _ => .built _

theorem attributeSelector : S.Agrees ts attributeSelector attributeSelector := by
  refine .skipSpace_bind (.expect_bind fun name => .skipSpace_bind (.front_bind ?_))
  rw [Token.kind_move]
  split
  · exact .skip_bind (.built _)
  · exact .skip_bind (comparison _ _)
  · exact .expected _

theorem invalidFormula (text : List Char) (n : Nat) :
    S.Agrees ts (invalidFormula text n) (invalidFormula text (S.place n)) := .fail _

theorem formula (start : Nat) (limit : Option Nat) :
    S.Agrees ts (formula start limit) (formula (S.place start) limit) := by
  refine .ahead_bind ?_
  rw [formulaRun_move]
  split
  · exact .fail _
  · refine .context_bind (.skip_bind ?_)
    rw [dropWhile_isSpace_map, S.front_right, Token.position_move]
    split
    · split
      · exact .pure _
      · exact invalidFormula _ _
    · refine .front_bind (.bind (.written _ _) fun text us _ => ?_)
      exact invalidFormula _ _

theorem literal_bind {kind : Token.Kind} {what : Expectation} {f g : Token → Parser β}
    (h : ∀ t us, us <:+ ts → S.Agrees us (f t) (g (t.move S.place))) :
    S.Agrees ts (literal kind what >>= f) (literal kind what >>= g) := by
  simp only [literal, bind_assoc, pure_bind]
  refine .skipSpace_bind (.expect_bind fun t => .skipSpace_bind (h t _ ?_))
  have hs := List.dropWhile_suffix Token.isSpace (l := ts)
  exact (List.dropWhile_suffix _).trans ((List.drop_suffix _ _).trans hs)

theorem number : S.Agrees ts number number := by
  refine literal_bind fun t us _ => ?_
  rw [Token.text_move]
  split
  · exact .pure _
  · exact .fail _

theorem looseArgument : S.Agrees ts looseArgument looseArgument := by
  refine .front_bind ?_
  rw [Token.kind_move]
  split
  · refine .skip_bind (.ahead_bind ?_)
    rw [closing?_move]
    split
    · exact .fail _
    · refine .front_bind (.skip_bind (.front_bind (.bind (.written _ _) fun text us _ => ?_)))
      exact .skip_bind (.pure _)
  · exact .pure none

section
variable {nested nested' : Parser Selector} {b : Nat}

theorem formulaOfSelector (hn : S.AgreesBelow b nested nested')
    (hb : ts.countP opensArgument < b) (start : Nat) :
    S.Agrees ts (formulaOfSelector nested start) (formulaOfSelector nested' (S.place start)) := by
  refine .ahead_bind ?_
  rw [ofKeyword?_move]
  split
  · exact .bind (formula _ _) fun f us _ => .pure _
  · refine .bind (formula _ _) fun f us hu => .skip_bind ?_
    have hs := (List.drop_suffix 1 us).trans hu
    exact .map (hn _ (Nat.lt_of_le_of_lt hs.sublist.countP_le hb)) _

theorem argumentBody (hn : S.AgreesBelow b nested nested') (hb : ts.countP opensArgument < b)
    (start : Nat) (g : ArgumentGrammar) :
    S.Agrees ts (argumentBody nested start g) (argumentBody nested' (S.place start) g) := by
  cases g with
  | noArgument => exact .fail _
  | selector => exact .map (hn ts hb) _
  | formula => exact .map (formula _ _) _
  | formulaOfSelector => exact formulaOfSelector hn hb start
  | string => exact literal_bind fun t us _ => .pure _
  | identifier => exact literal_bind fun t us _ => .pure _
  | number => exact .map number _

theorem knownArgument (hn : S.AgreesBelow b nested nested') (hb : ts.countP opensArgument ≤ b)
    (category : Category) (name : String) (s : Signature) :
    S.Agrees ts (knownArgument nested category name s)
      (knownArgument nested' category name s) := by
  refine .front_bind ?_
  rw [Token.kind_move]
  split
  next ho =>
    refine .skip_bind ?_
    have hlt := countP_drop_one_lt ho hb
    split
    · exact .fail _
    · exact .fail _
    · refine .bind (argumentBody hn hlt _ _) fun a us _ => ?_
      rw [discard_bind]
      exact .expect_bind fun _ => .pure _
  next =>
    split
    · exact .pure none
    · exact .fail _

theorem pseudoArgument (hn : S.AgreesBelow b nested nested') (hb : ts.countP opensArgument ≤ b)
    (category : Category) (t : Token) :
    S.Agrees ts (pseudoArgument nested category t)
      (pseudoArgument nested' category (t.move S.place)) := by
  refine .context_bind ?_
  rw [Token.text_move, S.signature]
  split
  · exact knownArgument hn hb _ _ _
  · exact .judge_bind fun us _ => looseArgument

theorem pseudo (hn : S.AgreesBelow b nested nested') (hb : ts.countP opensArgument ≤ b)
    (category : Category) :
    S.Agrees ts (pseudo nested category) (pseudo nested' category) := by
  refine .expect_bind fun t => .bind (pseudoArgument hn ?_ _ _) fun a us _ => .built _
  exact countP_le (List.drop_suffix 1 ts) hb

theorem simple (hn : S.AgreesBelow b nested nested') (hb : ts.countP opensArgument ≤ b)
    (t : Token) (k : ItemStart) :
    S.Agrees ts (simple nested t k) (simple nested' (t.move S.place) k) := by
  cases k with
  | tagName => exact .built _
  | universal => exact .pure _
  | className => exact .expect_bind fun u => .built _
  | idName => exact .built _
  | «attribute» => exact attributeSelector
  | pseudo category => exact pseudo hn hb category

theorem checkOrder (previous : Option Item) (t : Token) (k : ItemStart) :
    S.Agrees ts (checkOrder previous t k) (checkOrder previous (t.move S.place) k) := by
  unfold Parse.checkOrder
  split
  · exact .fail _
  · exact .fail _
  · exact .fail _
  · exact .pure ()

theorem compound (hn : S.AgreesBelow b nested nested') (hb : ts.countP opensArgument ≤ b) :
    S.Agrees ts (compound nested) (compound nested') := by
  refine .bind (.many fun previous t us hu => ?_) fun is us _ => ?_
  · unfold itemAt
    rw [Token.kind_move]
    cases t.kind.itemStart? with
    | none => exact .none
    | some k =>
      refine .some (.bind (checkOrder _ _ _) fun _ vs hv => ?_)
      exact .map (simple hn (countP_le hv (countP_le_of_cons hu hb)) _ _) _
  · split
    · exact .expected _
    · exact .pure is

theorem link (hn : S.AgreesBelow b nested nested') (hb : ts.countP opensArgument ≤ b)
    (k : Combinator) (n : Nat) :
    S.Agrees ts (link nested k n) (link nested' k (S.place n)) := by
  refine .judge_bind fun us hu => .skipSpace_bind (.map (compound hn ?_) _)
  exact countP_le ((List.dropWhile_suffix _).trans hu) hb

theorem explicitLink (hn : S.AgreesBelow b nested nested') (hb : ts.countP opensArgument ≤ b)
    (t : Token) :
    S.Agrees ts (explicitLink nested t) (explicitLink nested' (t.move S.place)) := by
  unfold Parse.explicitLink
  rw [Token.text_move]
  split
  · exact link hn hb _ _
  · exact .fail _

theorem spacedLink (hn : S.AgreesBelow b nested nested') (hb : ts.countP opensArgument ≤ b) :
    S.Agrees ts (spacedLink nested) (spacedLink nested') := by
  have hs := countP_le (List.dropWhile_suffix Token.isSpace) hb
  refine .skipSpace_bind (.front_bind ?_)
  rw [Token.kind_move]
  split
  · exact .pure none
  · exact .pure none
  · exact .pure none
  · exact .skip_bind (.map (explicitLink hn (countP_le (List.drop_suffix _ _) hs) _) _)
  · exact .map (link hn hs _ _) _

theorem linkAt (hn : S.AgreesBelow b nested nested') (hb : ts.countP opensArgument ≤ b)
    (t : Token) :
    Option.Rel (S.Agrees ts) (linkAt nested t) (linkAt nested' (t.move S.place)) := by
  unfold Parse.linkAt
  rw [Token.kind_move]
  split
  · exact .none
  · exact .none
  · exact .some (spacedLink hn hb)
  · exact .some (.map (explicitLink hn hb t) _)
  · exact .some (.fail _)

theorem spacedRule (hn : S.AgreesBelow b nested nested') (hb : ts.countP opensArgument ≤ b) :
    S.Agrees ts (spacedRule nested) (spacedRule nested') := by
  have hs := countP_le (List.dropWhile_suffix Token.isSpace) hb
  refine .skipSpace_bind (.bind (compound hn hs) fun is us hu => .map (.many ?_) _)
  exact fun _ t vs hv => linkAt hn (countP_le_of_cons hv (countP_le hu hs)) t

theorem rules (hn : S.AgreesBelow b nested nested') (hb : ts.countP opensArgument ≤ b) :
    S.Agrees ts (rules nested) (rules nested') := by
  refine .bind (spacedRule hn hb) fun r us hu => .map (.many fun _ t vs hv => ?_) _
  unfold ruleAt
  rw [Token.kind_move]
  split
  · exact .some (.map (spacedRule hn (countP_le_of_cons hv (countP_le hu hb))) _)
  · exact .none

end

/-- Selectors agree at all depths that their parentheses cannot exceed. -/
theorem selectorTo (S : Simulation) (b : Nat) {depth depth' : Nat} (h : b ≤ depth)
    (h' : b ≤ depth') : S.AgreesBelow b (selectorTo depth) (selectorTo depth') := by
  induction b generalizing depth depth' with
  | zero => exact fun _ hb => absurd hb (Nat.not_lt_zero _)
  | succ b ih =>
    cases depth with
    | zero => contradiction
    | succ depth =>
      cases depth' with
      | zero => contradiction
      | succ depth' =>
        intro ts hb
        have hn := ih (Nat.le_of_succ_le_succ h) (Nat.le_of_succ_le_succ h')
        exact .map (rules hn (Nat.le_of_lt_succ hb)) _

theorem closed (h : S.Agrees ts p q) :
    S.Agrees ts (closed p) (closed q) := by
  refine .bind h fun s us _ => .ahead_bind ?_
  rw [List.isEmpty_map]
  split
  · exact .pure s
  · exact .unexpected

theorem wholeSelector (S : Simulation) (ts : List Token) :
    S.Agrees ts wholeSelector wholeSelector := by
  have hcount : (ts.map (Token.move S.place)).countP opensArgument = ts.countP opensArgument := by
    rw [List.countP_map]
    rfl
  refine .ahead_bind ?_
  rw [hcount]
  exact closed (S.selectorTo _ (Nat.le_refl _) (Nat.le_refl _) ts (Nat.lt_succ_self _))

end Simulation
end CssSelector.Parse
