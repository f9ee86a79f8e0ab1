import CssSelector.Feature
import Mathlib

/-!
The memory of reported warnings over a sequence of calls. What is reported is remembered as a line,
and a line does not always tell its component: where a component goes on behind a closing bracket and
a space, the line can be read as one of a shorter component (`Notice.line_eq_iff`). A call is new
where no earlier one since the memory was cleared has the same line (`Reported.answers_eq_true_iff`).
-/

set_option autoImplicit false

namespace CssSelector

structure Notice where
  component : String
  message : String
  deriving DecidableEq, Repr

namespace Notice
variable {p q : Notice}

def line (p : Notice) : String := "[" ++ p.component ++ "] " ++ p.message

/-- The component of `q` is that of `p` with a bracket, a space and a piece of the message more. -/
def Splits (p q : Notice) : Prop :=
  ∃ piece, q.component = p.component ++ "] " ++ piece ∧ p.message = piece ++ "] " ++ q.message

/-- Different notices that are remembered alike. -/
def Confused (p q : Notice) : Prop := p.Splits q ∨ q.Splits p

/-- No bracket with a space behind it is in the component. -/
def Plain (p : Notice) : Prop := ¬ [']', ' '] <:+: p.component.toList

theorem Splits.not_plain (h : p.Splits q) : ¬ q.Plain := by
  obtain ⟨piece, hc, -⟩ := h
  refine not_not_intro ⟨p.component.toList, piece.toList, ?_⟩
  rw [hc, String.toList_append, String.toList_append]
  rfl

theorem Confused.not_plain (h : p.Confused q) : ¬ (p.Plain ∧ q.Plain) := by
  rintro ⟨hp, hq⟩
  exact h.elim (fun h => h.not_plain hq) fun h => h.not_plain hp

theorem Splits.line_eq (h : p.Splits q) : p.line = q.line := by
  obtain ⟨piece, hc, hm⟩ := h
  simp only [line, hc, hm, String.append_assoc]

theorem exists_piece {cs ds es : List Char} (h : ']' :: ' ' :: cs = es ++ ']' :: ' ' :: ds) :
    es = [] ∧ cs = ds ∨ ∃ piece, es = ']' :: ' ' :: piece ∧ cs = piece ++ ']' :: ' ' :: ds := by
  match es with
  | [] => exact .inl ⟨rfl, by simpa using h⟩
  | [_] => simp at h
  | _ :: _ :: piece =>
    simp only [List.cons_append, List.cons.injEq] at h
    obtain ⟨rfl, rfl, rfl⟩ := h
    exact .inr ⟨piece, rfl, rfl⟩

theorem eq_or_splits {es : List Char} (hc : q.component.toList = p.component.toList ++ es)
    (hm : ']' :: ' ' :: p.message.toList = es ++ ']' :: ' ' :: q.message.toList) :
    p = q ∨ p.Splits q := by
  obtain ⟨rfl, h⟩ | ⟨piece, rfl, h⟩ := exists_piece hm
  · rw [List.append_nil] at hc
    obtain ⟨_, _⟩ := p
    obtain ⟨_, _⟩ := q
    exact .inl (by rw [mk.injEq]; exact ⟨(String.toList_inj.1 hc).symm, String.toList_inj.1 h⟩)
  · refine .inr ⟨.ofList piece, String.toList_inj.1 ?_, String.toList_inj.1 ?_⟩
    · simpa using hc
    · simpa using h

theorem line_eq_iff : p.line = q.line ↔ p = q ∨ p.Confused q := by
  constructor
  · intro h
    have hl := congrArg String.toList h
    simp only [line, String.toList_append, List.append_assoc] at hl
    replace hl := List.append_cancel_left hl
    obtain ⟨es, hc, hm⟩ | ⟨es, hc, hm⟩ := List.append_eq_append_iff.1 hl
    · exact (eq_or_splits hc hm).imp_right .inl
    · exact (eq_or_splits hc hm).imp Eq.symm .inr
  · rintro (rfl | h | h)
    · rfl
    · exact h.line_eq
    · exact h.line_eq.symm

end Notice

inductive Call where
  | note (component message : String)
  | report (component : String) (w : Warning)
  | clear
  deriving DecidableEq, Repr

def Call.notice? : Call → Option Notice
  | .note component message => some ⟨component, message⟩
  | .report component w => some ⟨component, w.describe⟩
  | .clear => none

/-- Given since the memory was cleared, or from the start on. -/
def Recent (calls : List Call) (p : Notice) : Prop :=
  ∃ earlier call later, calls = earlier ++ call :: later ∧ call.notice? = some p ∧ .clear ∉ later

theorem not_recent_nil (p : Notice) : ¬ Recent [] p := by
  rintro ⟨earlier, call, later, h, -⟩
  simp at h

theorem recent_append_iff {calls : List Call} {call : Call} {p : Notice} :
    Recent (calls ++ [call]) p ↔ call.notice? = some p ∨ call ≠ .clear ∧ Recent calls p := by
  constructor
  · rintro ⟨earlier, c, later, h, hp, hl⟩
    rcases List.eq_nil_or_concat later with rfl | ⟨later, last, rfl⟩
    · obtain ⟨-, h⟩ := List.append_inj' h rfl
      obtain rfl := List.singleton_inj.1 h
      exact .inl hp
    · simp only [List.concat_eq_append, List.mem_append, List.mem_singleton, not_or] at h hl
      rw [← List.cons_append, ← List.append_assoc] at h
      obtain ⟨rfl, hlast⟩ := List.append_inj' h rfl
      obtain rfl := List.singleton_inj.1 hlast
      exact .inr ⟨Ne.symm hl.2, earlier, c, later, rfl, hp, hl.1⟩
  · rintro (hp | ⟨hne, earlier, c, later, rfl, hp, hl⟩)
    · exact ⟨calls, call, [], rfl, hp, List.not_mem_nil⟩
    · refine ⟨earlier, c, later ++ [call], by simp, hp, ?_⟩
      simpa [hl] using hne.symm

namespace Reported

/-- What is answered to a call, and the memory behind it. Clearing has no answer. -/
def step (r : Reported) : Call → Option Bool × Reported
  | .note component message => (r.note component message).map some id
  | .report component w => (r.note component w.describe).map some id
  | .clear => (none, empty)

def answers (r : Reported) : List Call → List (Option Bool)
  | [] => []
  | call :: calls => (r.step call).1 :: (r.step call).2.answers calls

def after (r : Reported) (calls : List Call) : Reported :=
  calls.foldl (fun r call => (r.step call).2) r

section
variable {r : Reported} {call : Call} {p : Notice} {l : String}

theorem step_of_notice (h : call.notice? = some p) :
    r.step call =
      if p.line ∈ r.lines then (some false, r) else (some true, ⟨p.line :: r.lines⟩) := by
  have hnote (component message : String) : (r.note component message).map some id =
      if (Notice.line ⟨component, message⟩) ∈ r.lines then (some false, r)
      else (some true, ⟨Notice.line ⟨component, message⟩ :: r.lines⟩) :=
    apply_ite (Prod.map some id) _ _ _
  cases call with
  | note component message =>
    cases h
    exact hnote component message
  | report component w =>
    cases h
    exact hnote component w.describe
  | clear => contradiction

theorem mem_lines_step (r : Reported) (call : Call) (l : String) :
    l ∈ (r.step call).2.lines ↔
      (∃ p, call.notice? = some p ∧ p.line = l) ∨ call ≠ .clear ∧ l ∈ r.lines := by
  cases hp : call.notice? with
  | none =>
    cases call with
    | clear => simp [step, empty]
    | note | report => contradiction
  | some p =>
    have hne : call ≠ .clear := by
      rintro rfl
      contradiction
    rw [step_of_notice hp]
    by_cases hl : p.line ∈ r.lines
    · rw [if_pos hl]
      simp only [Option.some.injEq, exists_eq_left', hne, ne_eq, not_false_eq_true, true_and]
      exact (or_iff_right_of_imp fun h => h ▸ hl).symm
    · rw [if_neg hl]
      simp [hne, eq_comm]

/-- The memory holds the lines of what was given notice of since it was cleared. -/
theorem mem_lines_after (calls : List Call) (l : String) :
    l ∈ (empty.after calls).lines ↔ ∃ p, Recent calls p ∧ p.line = l := by
  induction calls using List.reverseRecOn with
  | nil => simp [after, empty, not_recent_nil]
  | append_singleton calls call ih =>
    have hafter : empty.after (calls ++ [call]) = ((empty.after calls).step call).2 := by
      simp [after]
    rw [hafter, mem_lines_step, ih]
    simp only [recent_append_iff, or_and_right, exists_or, and_assoc, exists_and_left]

theorem getElem?_answers (r : Reported) (before rest : List Call) (call : Call) :
    (r.answers (before ++ call :: rest))[before.length]? = some ((r.after before).step call).1 := by
  induction before generalizing r with
  | nil => rfl
  | cons c before ih => exact ih (r.step c).2

theorem answer_eq_true_iff (h : call.notice? = some p) :
    (r.step call).1 = some true ↔ p.line ∉ r.lines := by
  rw [step_of_notice h]
  by_cases hl : p.line ∈ r.lines
  · simp [hl]
  · simp [hl]

/-- Of all calls from a cleared memory on, one is new where no notice given since the last clearing
is the same or is confused with it. Where components are plain none is confused. -/
theorem answers_eq_true_iff {before rest : List Call} {call : Call} {p : Notice}
    (h : call.notice? = some p) :
    ((empty.answers (before ++ call :: rest))[before.length]? = some (some true) ↔
      ∀ q, Recent before q → q ≠ p ∧ ¬ q.Confused p) ∧
    (p.Plain → (∀ q, Recent before q → q.Plain) →
      ((empty.answers (before ++ call :: rest))[before.length]? = some (some true) ↔
        ¬ Recent before p)) := by
  have hnew : (empty.answers (before ++ call :: rest))[before.length]? = some (some true) ↔
      ∀ q, Recent before q → q ≠ p ∧ ¬ q.Confused p := by
    rw [getElem?_answers, Option.some_inj, answer_eq_true_iff h, mem_lines_after]
    simp only [Notice.line_eq_iff, not_exists, not_and, not_or]
  refine ⟨hnew, fun hp hplain => hnew.trans ?_⟩
  constructor
  · exact fun hall hr => (hall p hr).1 rfl
  · intro hr q hq
    refine ⟨?_, fun hc => hc.not_plain ⟨hplain q hq, hp⟩⟩
    rintro rfl
    exact hr hq

theorem answers_around_clear :
    let w : Warning := ⟨"x", 3⟩
    let before : List Call := [.report "a" w, .note "a" "x (at offset 3)", .clear, .note "b" "x"]
    let p : Notice := ⟨"a", "x (at offset 3)"⟩
    (Call.report "a" w).notice? = some p ∧ p.Plain ∧ (∀ q, Recent before q → q.Plain) ∧
      empty.answers (before ++ [.report "a" w]) =
        [some true, some false, none, some true, some true] ∧
      (∀ q, Recent before q → q ≠ p ∧ ¬ q.Confused p) ∧ ¬ Recent before p := by
  intro w before p
  have hp : (Call.report "a" w).notice? = some p := by cbv
  have ha : empty.answers (before ++ [.report "a" w]) =
      [some true, some false, none, some true, some true] := by cbv
  have hnew : (empty.answers (before ++ [.report "a" w]))[before.length]? = some (some true) := by
    rw [ha]
    rfl
  have hplain : p.Plain := by
    rw [Notice.Plain]
    decide
  have hrecent (q : Notice) (hq : Recent before q) : q.Plain := by
    -- nothing before the clearing is remembered, so only the last notice counts
    have hsplit : before = [.report "a" w, .note "a" "x (at offset 3)"] ++ [.clear] ++
        [.note "b" "x"] := rfl
    rw [hsplit, recent_append_iff, recent_append_iff] at hq
    have hb : Notice.mk "b" "x" = q := by simpa [Call.notice?] using hq
    rw [← hb, Notice.Plain]
    decide
  obtain ⟨hexact, hunique⟩ := @answers_eq_true_iff before [] _ p hp
  exact ⟨hp, hplain, hrecent, ha, hexact.1 hnew, (hunique hplain hrecent).1 hnew⟩

/-- A notice that was never given is not new behind another one that it is confused with. -/
theorem answers_of_confused :
    empty.answers [.note "a] b" "c", .note "a" "b] c"] = [some true, some false] ∧
      ¬ Recent [.note "a] b" "c"] ⟨"a", "b] c"⟩ ∧
      ¬ ∀ (before rest : List Call) (call : Call) (p : Notice), call.notice? = some p →
        ((empty.answers (before ++ call :: rest))[before.length]? = some (some true) ↔
          ¬ Recent before p) := by
  have ha : empty.answers [.note "a] b" "c", .note "a" "b] c"] = [some true, some false] := by cbv
  have hr : ¬ Recent [.note "a] b" "c"] ⟨"a", "b] c"⟩ := by
    rw [← List.nil_append [_], recent_append_iff]
    simp [not_recent_nil, Call.notice?]
  refine ⟨ha, hr, fun h => ?_⟩
  have hnew := (h [.note "a] b" "c"] [] (.note "a" "b] c") ⟨"a", "b] c"⟩ rfl).2 hr
  rw [List.singleton_append, ha] at hnew
  exact absurd hnew (by decide)

end

end Reported
end CssSelector
