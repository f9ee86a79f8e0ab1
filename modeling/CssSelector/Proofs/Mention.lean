import CssSelector.Parse.Basic
import CssSelector.Proofs.Feature

/-!
What a text mentions: the constructs that a dialect may not recognise, each with the offset at which
it is judged. A dialect lets a list of mentions pass or stops at the first one that it refuses, and
the warnings are made from those that it flags.
-/

set_option autoImplicit false

namespace CssSelector

structure Mention where
  feature : Feature
  position : Nat
  deriving DecidableEq, Repr

def Mention.warning (m : Mention) : Warning := ⟨m.feature.message, m.position⟩

theorem Mention.warning_injective : Function.Injective warning := by
  rintro ⟨f, n⟩ ⟨g, k⟩ h
  rw [warning, warning, Warning.mk.injEq] at h
  obtain rfl := Feature.message_injective h.1
  obtain rfl : n = k := h.2
  rfl

namespace Dialect

/-- A feature is admitted where it is recognised or its policy does not reject it. -/
def admits (d : Dialect) (f : Feature) : Bool := d.recognises f || d.policyOn f ≠ .reject

def flags (d : Dialect) (f : Feature) : Bool := !d.recognises f && d.policyOn f = .warn

def warnings (d : Dialect) (ms : List Mention) : List Warning :=
  (ms.filter fun m => d.flags m.feature).map Mention.warning

@[simp] theorem warnings_nil (d : Dialect) : d.warnings [] = [] := rfl

@[simp] theorem warnings_append (d : Dialect) (ms ns : List Mention) :
    d.warnings (ms ++ ns) = d.warnings ms ++ d.warnings ns := by
  simp [warnings]

def Passes (d : Dialect) (ms : List Mention) (ws : List Warning) : Prop :=
  (∀ m ∈ ms, d.admits m.feature) ∧ ws = d.warnings ms

namespace Passes
variable {d : Dialect} {m : Mention} {ms ns : List Mention} {ws vs : List Warning}

@[simp] theorem nil_iff : d.Passes [] ws ↔ ws = [] := by simp [Passes]

theorem nil : d.Passes [] [] := nil_iff.2 rfl

theorem append (h : d.Passes ms ws) (k : d.Passes ns vs) : d.Passes (ms ++ ns) (ws ++ vs) := by
  obtain ⟨hm, rfl⟩ := h
  obtain ⟨kn, rfl⟩ := k
  refine ⟨fun m hmn => ?_, by rw [warnings_append]⟩
  exact (List.mem_append.1 hmn).elim (hm m) (kn m)

theorem cons (h : d.Passes [m] ws) (k : d.Passes ns vs) : d.Passes (m :: ns) (ws ++ vs) :=
  append h k

theorem of_append (h : d.Passes (ms ++ ns) ws) :
    ∃ ws₁ ws₂, ws = ws₁ ++ ws₂ ∧ d.Passes ms ws₁ ∧ d.Passes ns ws₂ := by
  obtain ⟨hm, rfl⟩ := h
  refine ⟨d.warnings ms, d.warnings ns, by rw [warnings_append], ⟨?_, rfl⟩, ⟨?_, rfl⟩⟩
  · exact fun m h => hm m (List.mem_append_left _ h)
  · exact fun m h => hm m (List.mem_append_right _ h)

theorem of_cons (h : d.Passes (m :: ns) ws) :
    ∃ ws₁ ws₂, ws = ws₁ ++ ws₂ ∧ d.Passes [m] ws₁ ∧ d.Passes ns ws₂ :=
  of_append (show d.Passes ([m] ++ ns) ws from h)

theorem of_recognises {n : Nat} {f : Feature} (h : d.recognises f) : d.Passes [⟨f, n⟩] [] := by
  simp [Passes, warnings, admits, flags, h]

theorem eq_nil_of_recognises {n : Nat} {f : Feature} (h : d.recognises f)
    (k : d.Passes [⟨f, n⟩] ws) : ws = [] := by
  rw [k.2]
  simp [warnings, flags, h]

theorem cons_iff_of_recognises (h : d.recognises m.feature) :
    d.Passes (m :: ns) ws ↔ d.Passes ns ws := by
  constructor
  · intro k
    obtain ⟨ws₁, ws₂, rfl, hm, hn⟩ := k.of_cons
    obtain rfl := eq_nil_of_recognises h hm
    exact hn
  · exact fun k => (of_recognises h).cons k

end Passes
end Dialect

namespace Parse.Parser

/-- What the dialect makes of a feature: an error if it refuses it, else the warnings it gives. -/
theorem run_judge (f : Feature) (n : Nat) (c : Context) (ts : List Token) :
    (judge f n).run c ts =
      if c.dialect.admits f then ⟨.ok (), c.dialect.warnings [⟨f, n⟩], ts⟩
      else ⟨.error (.unknown f), [], ts⟩ := by
  change Parser.run (if c.dialect.recognises f then _ else _) c ts = _
  by_cases h : c.dialect.recognises f = true
  · simp [h, Dialect.admits, Dialect.warnings, Dialect.flags]
  · cases hp : c.dialect.policyOn f <;>
      simp [h, hp, Dialect.admits, Dialect.warnings, Dialect.flags, Mention.warning]

theorem run_judge_eq_ok {f : Feature} {n : Nat} {c : Context} {ts us : List Token}
    {ws : List Warning} :
    (judge f n).run c ts = ⟨.ok (), ws, us⟩ ↔ us = ts ∧ c.dialect.Passes [⟨f, n⟩] ws := by
  rw [run_judge]
  by_cases h : c.dialect.admits f = true
  · simp only [h, if_true, Step.mk.injEq, true_and, Dialect.Passes, List.mem_singleton, forall_eq]
    exact ⟨fun ⟨hw, ht⟩ => ⟨ht.symm, hw.symm⟩, fun ⟨ht, hw⟩ => ⟨hw.symm, ht.symm⟩⟩
  · simp [h, Dialect.Passes]

end Parse.Parser
end CssSelector
