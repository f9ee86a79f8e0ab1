import CssSelector.Proofs.Reads.Formula
import CssSelector.Proofs.Reads.Loose
import Mathlib.Data.List.TakeWhile

/-!
The parser by index. All tokens and the end of the input stand in one list, and what is left of them
is told by an index into it. The operations on tokens are spelled out here in that form, with every
look-up, slice and subtraction checked: they have no value where one of these is out of range.
Wherever a parser can be none of them fails, and each comes to what it is on lists (`Cursor.agrees`).
-/

set_option autoImplicit false

namespace CssSelector.Cursor

open Parse Text

def minus? (m n : Nat) : Option Nat := if n ≤ m then some (m - n) else none

@[simp] theorem minus?_add (m n : Nat) : minus? (m + n) n = some m := by
  rw [minus?, if_pos (Nat.le_add_left n m), Nat.add_sub_cancel]

/-- Rounds of a loop up to the one that comes to a result, which is among the first `bound`. -/
def loop? {σ ρ : Type} (round : σ → Option (σ ⊕ ρ)) (bound : Nat) (s : σ) : Option ρ :=
  match bound with
  | 0 => none
  | bound + 1 => do
    match ← round s with
    | .inl s => loop? round bound s
    | .inr r => return r

section
variable {σ ρ : Type} {round : σ → Option (σ ⊕ ρ)} {s : σ}

theorem loop?_go {s' : σ} (h : round s = some (.inl s')) (bound : Nat) :
    loop? round (bound + 1) s = loop? round bound s' := by
  rw [loop?, h]
  rfl

theorem loop?_done {r : ρ} (h : round s = some (.inr r)) (bound : Nat) :
    loop? round (bound + 1) s = some r := by
  rw [loop?, h]
  rfl

end

section
variable (all : List Token)

/-- The token in front, where the last one is never passed. -/
def peek? (i : Nat) : Option Token := do
  all[min i (← minus? all.length 1)]?

def advance? (i : Nat) : Option Nat := do
  if (← peek? all i).kind = .endOfInput then return i else return i + 1

def peekPastSpace? (i : Nat) : Option Token := do
  let last ← minus? all.length 1
  if i ≤ all.length then
    match (all.drop i).find? fun t => !t.isSpace with
    | some t => return t
    | none => all[last]?
  else none

def spaceRound (i : Nat) : Option (Nat ⊕ Nat) := do
  if (← peek? all i).isSpace then return .inl (← advance? all i) else return .inr i

def skipSpace? (i : Nat) : Option Nat := loop? (spaceRound all) all.length i

/-- A formula as far as it is read: its text, and whether all of it can stand in a formula. -/
structure Progress where
  index : Nat
  depth : Nat
  text : List Char
  sound : Bool

def Progress.push? (s : Progress) (t : Token) : Option Progress :=
  match t.kind with
  | .leftParen => return { s with depth := s.depth + 1, sound := false }
  | .rightParen => return { s with depth := ← minus? s.depth 1 }
  | _ =>
    match formulaText? t, s.depth with
    | some text, 0 => return { s with text := s.text ++ text }
    | _, _ => return { s with sound := false }

def Progress.result (s : Progress) : Nat × Option (List Char) :=
  (s.index, if s.sound then some s.text else none)

def formulaRound (stop : Option Nat) (s : Progress) :
    Option (Progress ⊕ Option (Nat × Option (List Char))) := do
  if some s.index = stop then return .inr (some s.result)
  else
    let t ← peek? all s.index
    if t.kind = .rightParen ∧ s.depth = 0 then return .inr (some s.result)
    else if t.kind = .endOfInput then return .inr none
    else
      return .inl { ← s.push? t with index := ← advance? all s.index }

/-- Where a formula ends, by the index `stop` or by its closing parenthesis, and its text if all of
its tokens can stand in one. There is no such place where the parenthesis is missing. -/
def formulaEnd? (stop : Option Nat) (i : Nat) : Option (Option (Nat × Option (List Char))) :=
  loop? (formulaRound all stop) all.length ⟨i, 0, [], true⟩

def keyword? (i depth : Nat) : List Token → Option (Option Nat)
  | [] => return none
  | t :: ts =>
    match t.kind with
    | .leftParen => keyword? (i + 1) (depth + 1) ts
    | .rightParen => do
      if depth = 0 then return none else keyword? (i + 1) (← minus? depth 1) ts
    | .endOfInput => return none
    | .ident => do
      if depth = 0 ∧ sameLetters t.text "of" then
        if (← all[← minus? i 1]?).isSpace then return some i else keyword? (i + 1) depth ts
      else keyword? (i + 1) depth ts
    | _ => keyword? (i + 1) depth ts

def argumentRound (s : Nat × Nat) : Option ((Nat × Nat) ⊕ Option Nat) := do
  match (← peek? all s.1).kind with
  | .leftParen => return .inl (← advance? all s.1, s.2 + 1)
  | .rightParen =>
    if s.2 = 0 then return .inr (some s.1)
    else return .inl (← advance? all s.1, ← minus? s.2 1)
  | .endOfInput => return .inr none
  | _ => return .inl (← advance? all s.1, s.2)

def argumentEnd? (i : Nat) : Option (Option Nat) :=
  loop? (argumentRound all) all.length (i, 0)

end

/-- From the index `i` on there are the tokens `us`, and then the end of the input. -/
structure Left (all : List Token) (e : Token) (i : Nat) (us : List Token) : Prop where
  drop_eq : all.drop i = us ++ [e]
  last : e.kind = .endOfInput
  inner : ∀ u ∈ us, u.kind ≠ .endOfInput

namespace Left
variable {all us : List Token} {e t : Token} {i : Nat}

theorem length_eq (h : Left all e i us) : all.length = i + us.length + 1 := by
  have hl := congrArg List.length h.drop_eq
  rw [List.length_drop, List.length_append, List.length_singleton] at hl
  omega

theorem getElem?_eq (h : Left all e i us) : all[i]? = (us ++ [e]).head? := by
  rw [← h.drop_eq, List.head?_drop]

theorem peek?_eq (h : Left all e i us) : peek? all i = (us ++ [e]).head? := by
  have hl := h.length_eq
  rw [peek?, hl, minus?_add, ← h.getElem?_eq]
  exact congrArg (all[·]?) (Nat.min_eq_left (Nat.le_add_right _ _))

theorem peek?_nil (h : Left all e i []) : peek? all i = some e := h.peek?_eq

theorem peek?_cons (h : Left all e i (t :: us)) : peek? all i = some t := h.peek?_eq

theorem advance?_nil (h : Left all e i []) : advance? all i = some i := by
  rw [advance?, h.peek?_nil]
  simp [h.last]

theorem advance?_cons (h : Left all e i (t :: us)) : advance? all i = some (i + 1) := by
  rw [advance?, h.peek?_cons]
  simp [h.inner t List.mem_cons_self]

theorem tail (h : Left all e i (t :: us)) : Left all e (i + 1) us where
  drop_eq := by rw [← List.drop_drop, h.drop_eq, List.cons_append, List.drop_one, List.tail_cons]
  last := h.last
  inner u hu := h.inner u (List.mem_cons_of_mem t hu)

theorem drop (h : Left all e i us) {n : Nat} (hn : n ≤ us.length) :
    Left all e (i + n) (us.drop n) where
  drop_eq := by rw [← List.drop_drop, h.drop_eq, List.drop_append_of_le_length hn]
  last := h.last
  inner u hu := h.inner u ((List.drop_suffix n us).subset hu)

theorem skipSpace?_loop (h : Left all e i us) (n : Nat) :
    ∃ j, loop? (spaceRound all) (n + us.length + 1) i = some j ∧
      Left all e j (us.dropWhile Token.isSpace) := by
  induction us generalizing i with
  | nil =>
    refine ⟨i, loop?_done ?_ n, h⟩
    rw [spaceRound, h.peek?_nil]
    simp [Token.isSpace, h.last]
  | cons t us ih =>
    cases ht : t.isSpace with
    | false =>
      refine ⟨i, loop?_done ?_ _, by simpa [ht] using h⟩
      rw [spaceRound, h.peek?_cons]
      simp [ht]
    | true =>
      have hround : spaceRound all i = some (.inl (i + 1)) := by
        rw [spaceRound, h.peek?_cons, h.advance?_cons]
        simp [ht]
      obtain ⟨j, hj, hl⟩ := ih h.tail
      exact ⟨j, (loop?_go hround _).trans hj, by simpa [ht] using hl⟩

theorem skipSpace?_eq (h : Left all e i us) :
    ∃ j, skipSpace? all i = some j ∧ Left all e j (us.dropWhile Token.isSpace) := by
  rw [skipSpace?, h.length_eq]
  exact h.skipSpace?_loop i

theorem peekPastSpace?_eq (h : Left all e i us) :
    peekPastSpace? all i = (us.dropWhile Token.isSpace ++ [e]).head? := by
  have he : e.isSpace = false := by simp [Token.isSpace, h.last]
  have hfind : (us ++ [e]).find? (fun t => !t.isSpace) =
      (us.dropWhile Token.isSpace ++ [e]).head? := by
    rw [List.find?_not_eq_head?_dropWhile, List.dropWhile_append]
    split
    next hnil => simp [he, List.isEmpty_iff.1 hnil]
    next => rfl
  have hle : i ≤ i + us.length + 1 := by omega
  rw [peekPastSpace?, h.length_eq, minus?_add, h.drop_eq, hfind, List.head?_append]
  simp only [Option.bind_eq_bind, Option.bind_some, hle, if_true]
  cases us.dropWhile Token.isSpace with
  | nil => rfl
  | cons t vs => rfl

end Left

namespace Progress
variable {s : Progress} {t : Token}

def read (s : Progress) (text : Option (List Char)) : Option (List Char) :=
  if s.sound then text.map (s.text ++ ·) else none

theorem result_eq (s : Progress) : s.result = (s.index, s.read (some [])) := by
  cases hs : s.sound <;> simp [result, read, hs]

theorem read_of_not_sound (hs : s.sound = false) (text : Option (List Char)) :
    s.read text = none := by
  simp [read, hs]

def Flat (s : Progress) : Prop := s.depth ≠ 0 → s.sound = false

/-- Taking in a token cannot fail before the parenthesis that closes the formula, and says of the
formula what the run over the list of tokens says. -/
theorem exists_push? (hs : s.Flat) (hc : ¬(t.kind = .rightParen ∧ s.depth = 0)) :
    ∃ s', s.push? t = some s' ∧ s'.Flat ∧
      (∀ r : FormulaRun, s'.read r.text = s.read (r.push t).text) ∧
      ∀ limit us, limit ≠ some 0 → formulaRun limit s.depth (t :: us) =
        (formulaRun (limit.map (· - 1)) s'.depth us).map (.push t) := by
  by_cases ho : t.kind = .leftParen
  · refine ⟨_, by rw [push?, ho]; rfl, fun _ => rfl, fun r => ?_, fun limit us hl => ?_⟩
    · simp [read, FormulaRun.push, formulaText?, ho]
    · simp [formulaRun, ho, hl]
  by_cases hp : t.kind = .rightParen
  · obtain ⟨depth, hdepth⟩ := Nat.exists_eq_add_one_of_ne_zero fun hz => hc ⟨hp, hz⟩
    have hsound := hs (by simp [hdepth])
    refine ⟨{ s with depth := depth }, ?_, fun _ => hsound, fun r => ?_, fun limit us hl => ?_⟩
    · simp [push?, hp, hdepth]
    · simp [read, hsound]
    · simp [formulaRun, hp, hl, hdepth]
  have hrun (limit : Option Nat) (us : List Token) (hl : limit ≠ some 0) :=
    formulaRun_cons ho hp hl s.depth us
  cases ht : formulaText? t with
  | none =>
    refine ⟨{ s with sound := false }, ?_, fun _ => rfl, fun r => ?_, hrun⟩
    · simp [push?, ht]
    · simp [read, FormulaRun.push, ht]
  | some cs =>
    by_cases hz : s.depth = 0
    · refine ⟨{ s with text := s.text ++ cs }, ?_, fun hn => absurd hz hn, fun r => ?_, hrun⟩
      · simp [push?, ht, hz]
      · cases hr : r.text <;> simp [read, FormulaRun.push, ht, hr]
    · refine ⟨{ s with sound := false }, ?_, fun _ => rfl, fun r => ?_, hrun⟩
      · simp [push?, ht, hz]
      · rw [read_of_not_sound (hs hz), read_of_not_sound rfl]

end Progress

namespace Left
variable {all us : List Token} {e t : Token} {i : Nat}

theorem eq_stop_iff {limit : Option Nat} : some i = limit.map (i + ·) ↔ limit = some 0 := by
  cases limit <;> simp

theorem stop_add_one {limit : Option Nat} (h : limit ≠ some 0) :
    limit.map (i + ·) = (limit.map (· - 1)).map (i + 1 + ·) := by
  cases limit with
  | none => rfl
  | some m =>
    have hm : m ≠ 0 := fun hz => h (congrArg some hz)
    simp only [Option.map_some, Option.some.injEq]
    omega

theorem formulaEnd?_loop {s : Progress} (h : Left all e s.index us) (hs : s.Flat) (n : Nat)
    (limit : Option Nat) :
    loop? (formulaRound all (limit.map (s.index + ·))) (n + us.length + 1) s =
      some ((formulaRun limit s.depth us).map fun r => (s.index + r.length, s.read r.text)) := by
  induction us generalizing s limit with
  | nil =>
    refine loop?_done ?_ n
    by_cases hl : limit = some 0
    · simp [formulaRound, hl, formulaRun, FormulaRun.empty, s.result_eq]
    · have hne := mt (eq_stop_iff (i := s.index)).1 hl
      simp [formulaRound, hne, h.peek?_nil, h.last, formulaRun, hl]
  | cons t us ih =>
    by_cases hl : limit = some 0
    · refine loop?_done ?_ _
      simp [formulaRound, hl, formulaRun, FormulaRun.empty, s.result_eq]
    have hne := mt (eq_stop_iff (i := s.index)).1 hl
    by_cases hc : t.kind = .rightParen ∧ s.depth = 0
    · refine loop?_done ?_ _
      simp [formulaRound, hne, h.peek?_cons, hc, formulaRun, hl, FormulaRun.empty, s.result_eq]
    obtain ⟨s', hpush, hflat, hread, hrun⟩ := Progress.exists_push? hs hc
    have hround : formulaRound all (limit.map (s.index + ·)) s =
        some (.inl { s' with index := s.index + 1 }) := by
      have hk := h.inner t List.mem_cons_self
      simp [formulaRound, hne, h.peek?_cons, hc, hk, hpush, h.advance?_cons]
    refine (loop?_go hround _).trans ?_
    rw [stop_add_one hl]
    refine (ih (s := { s' with index := s.index + 1 }) h.tail hflat _).trans ?_
    rw [hrun limit us hl, Option.map_map]
    congr 2
    funext r
    exact Prod.ext (Nat.add_right_comm ..) (hread r)

theorem argumentEnd?_loop (h : Left all e i us) (n depth : Nat) :
    loop? (argumentRound all) (n + us.length + 1) (i, depth) =
      some ((closing? depth us).map (i + ·)) := by
  induction us generalizing i depth with
  | nil =>
    refine loop?_done ?_ n
    simp [argumentRound, h.peek?_nil, h.last, closing?]
  | cons t us ih =>
    -- one more token leads from the index of it to the next one
    have hstep (depth' : Nat) (hround : argumentRound all (i, depth) = some (.inl (i + 1, depth')))
        (hclosing : closing? depth (t :: us) = (closing? depth' us).map (· + 1)) :
        loop? (argumentRound all) (n + (t :: us).length + 1) (i, depth) =
          some ((closing? depth (t :: us)).map (i + ·)) := by
      refine ((loop?_go hround _).trans (ih h.tail depth')).trans ?_
      rw [hclosing, Option.map_map]
      congr 2
      funext m
      exact Nat.add_right_comm i 1 m
    have hk := h.inner t List.mem_cons_self
    by_cases ho : t.kind = .leftParen
    · exact hstep (depth + 1) (by simp [argumentRound, h.peek?_cons, h.advance?_cons, ho])
        (by simp [closing?, ho])
    by_cases hc : t.kind = .rightParen
    · cases depth with
      | zero =>
        refine loop?_done ?_ _
        simp [argumentRound, h.peek?_cons, hc, closing?]
      | succ depth =>
        exact hstep depth (by simp [argumentRound, h.peek?_cons, h.advance?_cons, hc])
          (by simp [closing?, hc])
    · exact hstep depth (by simp [argumentRound, h.peek?_cons, h.advance?_cons])
        (by simp [closing?, hc])

theorem keyword?_eq {u : Token} (h : Left all e (i + 1) us) (hu : all[i]? = some u) (depth : Nat) :
    keyword? all (i + 1) depth (us ++ [e]) =
      some ((ofKeyword? u.kind depth us).map (i + 1 + ·)) := by
  induction us generalizing i u depth with
  | nil => simp [keyword?, h.last, ofKeyword?]
  | cons t us ih =>
    have hstep (depth' : Nat)
        (hgo : keyword? all (i + 1) depth (t :: us ++ [e]) =
          keyword? all (i + 1 + 1) depth' (us ++ [e]))
        (hof : ofKeyword? u.kind depth (t :: us) = (ofKeyword? t.kind depth' us).map (· + 1)) :
        keyword? all (i + 1) depth (t :: us ++ [e]) =
          some ((ofKeyword? u.kind depth (t :: us)).map (i + 1 + ·)) := by
      rw [hgo, ih h.tail h.getElem?_eq, hof, Option.map_map]
      congr 2
      funext m
      exact Nat.add_right_comm (i + 1) 1 m
    have hk := h.inner t List.mem_cons_self
    by_cases ho : t.kind = .leftParen
    · exact hstep (depth + 1) (by simp [keyword?, ho]) (by simp [ofKeyword?, ho])
    by_cases hc : t.kind = .rightParen
    · cases depth with
      | zero => simp [keyword?, ofKeyword?, hc]
      | succ depth => exact hstep depth (by simp [keyword?, hc]) (by simp [ofKeyword?, hc])
    by_cases hi : t.kind = .ident
    · by_cases hof : depth = 0 ∧ sameLetters t.text "of"
      · by_cases hs : u.kind = .whitespace
        · simp [keyword?, ofKeyword?, hi, hof, hu, hs, Token.isSpace]
        · exact hstep depth (by simp [keyword?, hi, hof, hu, hs, Token.isSpace])
            (by simp [ofKeyword?, hi, hof, hs])
      · refine hstep depth (by simp [keyword?, hi, hof]) ?_
        cases depth with
        | zero =>
          have hne : ¬sameLetters t.text "of" := fun h => hof ⟨rfl, h⟩
          simp [ofKeyword?, hi, hne]
        | succ depth => simp [ofKeyword?, hi]
    · exact hstep depth (by simp [keyword?]) (by simp [ofKeyword?, hc, hi])

end Left

/-- The index at which `us` is left of the tokens and the end of the input. -/
def index (all us : List Token) : Nat := all.length - (us.length + 1)

theorem Left.index_eq {all us : List Token} {e : Token} {i : Nat} (h : Left all e i us) :
    index all us = i := by
  rw [index, h.length_eq]
  omega

/-- Where `us` is left of all tokens no operation by index fails, and each of them comes to what it
is on lists: looking ahead and advancing, passing white space, reading a formula up to a limit, and
finding the keyword behind an opening parenthesis and the parenthesis that closes an argument. -/
structure Agrees (c : Context) (all us : List Token) : Prop where
  peek : peek? all (index all us) = some (c.front us)
  advance : advance? all (index all us) = some (index all (us.drop 1))
  pastSpace : peekPastSpace? all (index all us) = some (c.front (us.dropWhile Token.isSpace))
  skipSpace : skipSpace? all (index all us) = some (index all (us.dropWhile Token.isSpace))
  formulaEnd : ∀ limit : Option Nat,
    formulaEnd? all (limit.map (index all us + ·)) (index all us) =
      some ((formulaRun limit 0 us).map fun r => (index all (us.drop r.length), r.text))
  argumentEnd : argumentEnd? all (index all us) =
    some ((closing? 0 us).map fun n => index all (us.drop n))
  keyword : ∀ t, t :: us <:+ all.dropLast →
    keyword? all (index all us) 0 (all.drop (index all us)) =
      some ((ofKeyword? t.kind 0 us).map fun n => index all (us.drop n))
  behindKeyword : ∀ previous n, ofKeyword? previous 0 us = some n →
    index all (us.drop n) + 1 = index all ((us.drop n).drop 1)

section
variable {c : Context} {us ts : List Token}

theorem head?_concat_front (c : Context) (us : List Token) :
    (us ++ [c.front []]).head? = some (c.front us) := by
  cases us <;> rfl

theorem Left.of_suffix (hts : ∀ t ∈ ts, t.kind ≠ .endOfInput) (hu : us <:+ ts) :
    Left (ts ++ [c.front []]) (c.front []) (index (ts ++ [c.front []]) us) us where
  drop_eq := by
    obtain ⟨before, rfl⟩ := hu
    have hi : index (before ++ us ++ [c.front []]) us = before.length := by simp [index]
    rw [hi, List.append_assoc, List.drop_left]
  last := rfl
  inner u hm := hts u (hu.subset hm)

theorem agrees (hts : ∀ t ∈ ts, t.kind ≠ .endOfInput) (hu : us <:+ ts) :
    Agrees c (ts ++ [c.front []]) us := by
  have h := Left.of_suffix (c := c) hts hu
  generalize hall : ts ++ [c.front []] = all at h
  have hdrop {n : Nat} (hn : n ≤ us.length) : index all (us.drop n) = index all us + n :=
    (h.drop hn).index_eq
  have hbound : all.length = index all us + us.length + 1 := h.length_eq
  constructor
  case peek => rw [h.peek?_eq, head?_concat_front]
  case pastSpace => rw [h.peekPastSpace?_eq, head?_concat_front]
  case advance =>
    cases us with
    | nil => rw [h.advance?_nil, List.drop_nil]
    | cons t us => rw [h.advance?_cons, List.drop_one, List.tail_cons, h.tail.index_eq]
  case skipSpace =>
    obtain ⟨j, hj, hl⟩ := h.skipSpace?_eq
    rw [hj, hl.index_eq]
  case formulaEnd =>
    intro limit
    rw [formulaEnd?, hbound]
    refine (h.formulaEnd?_loop (s := ⟨index all us, 0, [], true⟩) (fun hz => absurd rfl hz)
      (index all us) limit).trans ?_
    refine congrArg some (Option.map_congr fun r hr => ?_)
    obtain ⟨xs, vs, rfl, hl, -⟩ := formulaRun_sound hr
    rw [hdrop (by simp [← hl])]
    cases r.text <;> simp [Progress.read]
  case argumentEnd =>
    rw [argumentEnd?, hbound, h.argumentEnd?_loop]
    refine congrArg some (Option.map_congr fun n hn => ?_)
    obtain ⟨xs, t, vs, rfl, rfl, -, -⟩ := closes_of_closing? hn
    rw [hdrop (by simp)]
  case keyword =>
    intro t ht
    rw [← hall, List.dropLast_concat] at ht
    have k := Left.of_suffix (c := c) hts ht
    rw [hall] at k
    have hindex := k.tail.index_eq
    rw [h.drop_eq, hindex, k.tail.keyword?_eq k.getElem?_eq]
    refine congrArg some (Option.map_congr fun n hn => ?_)
    obtain ⟨xs, u, vs, rfl, rfl, -, -⟩ := ofKeyword?_sound hn
    rw [hdrop (by simp), hindex]
  case behindKeyword =>
    intro previous n hn
    obtain ⟨xs, t, vs, rfl, rfl, -, -⟩ := ofKeyword?_sound hn
    rw [List.drop_drop, hdrop (by simp), hdrop (by simp), Nat.add_assoc]

/-! The check is a real one: the keyword cannot be asked for where no token stands before it. -/

example :
    let all : List Token := [⟨.ident, "of", 0⟩, ⟨.whitespace, " ", 2⟩, ⟨.ident, "OF", 3⟩,
      ⟨.endOfInput, "", 5⟩]
    keyword? all 0 0 all = none ∧ keyword? all 1 0 (all.drop 1) = some (some 2) := by decide +kernel

end
end CssSelector.Cursor
