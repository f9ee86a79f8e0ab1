import CssSelector.Dialect.Basic
import CssSelector.Parse.Error
import CssSelector.Text.Offset

/-!
Parsers of tokens. A parser takes tokens off the front of a list, in which the end of the input is
not a token but the empty list, and what it leaves is a suffix of that list by its type. It fails
with an error or answers with a value, and in both cases with the warnings it met, in the order of
the text.
-/

set_option autoImplicit false

namespace CssSelector.Parse

open Text

structure Context where
  dialect : Dialect
  source : List Char

/-- The token in front, which is the end of the input where no other is left. -/
def Context.front (c : Context) : List Token → Token
  | t :: _ => t
  | [] => ⟨.endOfInput, "", byteSize c.source⟩

/-- What a parser came to. After an error the tokens are those where it gave up. -/
structure Step (α : Type) where
  result : Except ParseError α
  warnings : List Warning
  rest : List Token
  deriving Repr

@[ext] structure Parser (α : Type) where
  run : Context → List Token → Step α
  suffix : ∀ c ts, (run c ts).rest <:+ ts

namespace Parser
variable {α β : Type}

protected def pure (a : α) : Parser α := ⟨fun _ ts => ⟨.ok a, [], ts⟩, fun _ _ => List.suffix_rfl⟩

protected def bind (p : Parser α) (f : α → Parser β) : Parser β where
  run c ts :=
    match p.run c ts with
    | ⟨.error e, warnings, rest⟩ => ⟨.error e, warnings, rest⟩
    | ⟨.ok a, warnings, rest⟩ =>
      let s := (f a).run c rest
      { s with warnings := warnings ++ s.warnings }
  suffix c ts := by
    have h := p.suffix c ts
    split
    next hp => rwa [hp] at h
    next a _ rest hp =>
      rw [hp] at h
      exact ((f a).suffix c rest).trans h

instance : Monad Parser where
  pure := Parser.pure
  bind := Parser.bind

@[simp] theorem run_pure (a : α) (c : Context) (ts : List Token) :
    (pure a : Parser α).run c ts = ⟨.ok a, [], ts⟩ := rfl

theorem run_bind (p : Parser α) (f : α → Parser β) (c : Context) (ts : List Token) :
    (p >>= f).run c ts =
      match p.run c ts with
      | ⟨.error e, warnings, rest⟩ => ⟨.error e, warnings, rest⟩
      | ⟨.ok a, warnings, rest⟩ =>
        ⟨((f a).run c rest).result, warnings ++ ((f a).run c rest).warnings,
          ((f a).run c rest).rest⟩ := rfl

theorem run_bind_eq_ok {p : Parser α} {f : α → Parser β} {c : Context} {ts us : List Token} {b : β}
    {ws : List Warning} :
    (p >>= f).run c ts = ⟨.ok b, ws, us⟩ ↔ ∃ a ws₁ ts₁ ws₂,
      p.run c ts = ⟨.ok a, ws₁, ts₁⟩ ∧ (f a).run c ts₁ = ⟨.ok b, ws₂, us⟩ ∧ ws = ws₁ ++ ws₂ := by
  rw [run_bind]
  rcases p.run c ts with ⟨_ | a, ws₁, ts₁⟩
  · simp
  · rcases h : (f a).run c ts₁ with ⟨_ | _, _, _⟩ <;> simp <;> grind

instance : LawfulMonad Parser := LawfulMonad.mk' Parser
  (fun p => by
    apply Parser.ext
    funext c ts
    change (p >>= pure).run c ts = _
    rw [run_bind]
    rcases p.run c ts with ⟨_ | _, _, _⟩ <;> simp)
  (fun _ _ => rfl)
  (fun p f g => by
    apply Parser.ext
    funext c ts
    simp only [run_bind]
    rcases p.run c ts with ⟨_ | a, _, us⟩
    · rfl
    dsimp only
    rcases (f a).run c us with ⟨_ | b, _, _⟩ <;> simp)

def fail (e : ParseError) : Parser α :=
  ⟨fun _ ts => ⟨.error e, [], ts⟩, fun _ _ => List.suffix_rfl⟩

def warn (w : Warning) : Parser Unit :=
  ⟨fun _ ts => ⟨.ok (), [w], ts⟩, fun _ _ => List.suffix_rfl⟩

def context : Parser Context := ⟨fun c ts => ⟨.ok c, [], ts⟩, fun _ _ => List.suffix_rfl⟩

def ahead : Parser (List Token) := ⟨fun _ ts => ⟨.ok ts, [], ts⟩, fun _ _ => List.suffix_rfl⟩

def front : Parser Token := ⟨fun c ts => ⟨.ok (c.front ts), [], ts⟩, fun _ _ => List.suffix_rfl⟩

def skip (n : Nat) : Parser Unit :=
  ⟨fun _ ts => ⟨.ok (), [], ts.drop n⟩, fun _ _ => List.drop_suffix _ _⟩

def skipSpace : Parser Unit :=
  ⟨fun _ ts => ⟨.ok (), [], ts.dropWhile Token.isSpace⟩, fun _ _ => List.dropWhile_suffix _⟩

@[simp] theorem run_fail (e : ParseError) (c : Context) (ts : List Token) :
    (fail e : Parser α).run c ts = ⟨.error e, [], ts⟩ := rfl

@[simp] theorem run_warn (w : Warning) (c : Context) (ts : List Token) :
    (warn w).run c ts = ⟨.ok (), [w], ts⟩ := rfl

@[simp] theorem run_context (c : Context) (ts : List Token) :
    context.run c ts = ⟨.ok c, [], ts⟩ := rfl

@[simp] theorem run_ahead (c : Context) (ts : List Token) :
    ahead.run c ts = ⟨.ok ts, [], ts⟩ := rfl

@[simp] theorem run_front (c : Context) (ts : List Token) :
    front.run c ts = ⟨.ok (c.front ts), [], ts⟩ := rfl

@[simp] theorem run_skip (n : Nat) (c : Context) (ts : List Token) :
    (skip n).run c ts = ⟨.ok (), [], ts.drop n⟩ := rfl

@[simp] theorem run_skipSpace (c : Context) (ts : List Token) :
    skipSpace.run c ts = ⟨.ok (), [], ts.dropWhile Token.isSpace⟩ := rfl

/-- An error at the token `t`, of which `flaw` names what was found. -/
def failAt (t : Token) (flaw : String → Flaw) : Parser α :=
  fail (.malformed (flaw t.describe) t.position)

def unexpected : Parser α := do failAt (← front) .unexpected

def expected (what : Expectation) : Parser α := do failAt (← front) (.expected what)

def expect (kind : Token.Kind) (what : Expectation) : Parser Token := do
  let t ← front
  if t.kind = kind then
    skip 1
    return t
  else expected what

/-- A feature that the dialect does not recognise is treated as its policy says. -/
def judge (f : Feature) (position : Nat) : Parser Unit := do
  let d := (← context).dialect
  if d.recognises f then return ()
  else
    match d.policyOn f with
    | .reject => fail (.unknown f)
    | .accept => return ()
    | .warn => warn ⟨f.message, position⟩

def written (start stop : Nat) : Parser (List Char) := do
  match slice? (← context).source start stop with
  | some text => return text
  | none => fail (.defect (.slice start stop))

def built (x : Except EmptyName α) : Parser α :=
  match x with
  | .ok a => return a
  | .error e => fail (.defect (.emptyName e))

/-! Repetition. Every round takes the token in front, so that it ends whatever it repeats. -/

/-- Items after the `previous` one. `next` says whether the token in front starts one more item, and
parses that from behind the token; it may find there that it was the end after all. -/
def manyAfter (next : Option α → Token → Option (Parser (Option α))) (c : Context)
    (previous : Option α) (ts : List Token) : Step (List α) :=
  match ts with
  | [] => ⟨.ok [], [], []⟩
  | t :: us =>
    match next previous t with
    | none => ⟨.ok [], [], t :: us⟩
    | some p =>
      let s := p.run c us
      match s.result with
      | .error e => ⟨.error e, s.warnings, s.rest⟩
      | .ok none => ⟨.ok [], s.warnings, s.rest⟩
      | .ok (some a) =>
        let r := manyAfter next c (some a) s.rest
        ⟨r.result.map (a :: ·), s.warnings ++ r.warnings, r.rest⟩
termination_by ts.length
decreasing_by exact Nat.lt_succ_of_le (p.suffix c us).length_le

theorem manyAfter_suffix (next : Option α → Token → Option (Parser (Option α))) (c : Context)
    (previous : Option α) (ts : List Token) : (manyAfter next c previous ts).rest <:+ ts := by
  fun_induction manyAfter next c previous ts with
  | case1 | case2 => exact List.suffix_rfl
  | case3 _ _ us p | case4 _ _ us p => exact (p.suffix c us).trans (List.suffix_cons _ _)
  | case5 _ _ us p =>
    rename_i ih
    exact (ih.trans (p.suffix c us)).trans (List.suffix_cons _ _)

def many (next : Option α → Token → Option (Parser (Option α))) : Parser (List α) :=
  ⟨fun c ts => manyAfter next c none ts, fun c ts => manyAfter_suffix next c none ts⟩

end Parser
end CssSelector.Parse
