import CssSelector.Proofs.Simulation

/-!
Policies filter one and the same parse. Where everything that is not recognised is flagged, a run
mentions all of it; under the policies of a dialect the run stops at the first mention that these
reject, and otherwise differs in its warnings alone (`Dialect.parse_filters`).
-/

set_option autoImplicit false

namespace CssSelector

namespace Dialect

def withPolicy (d : Dialect) (p : Policy) : Dialect :=
  { d with
    pseudoClassPolicy := p
    pseudoElementPolicy := p
    attributes := { d.attributes with unknown := p }
    combinators := { d.combinators with unknown := p } }

@[simp] theorem signature?_withPolicy (d : Dialect) (p : Policy) (category : Category)
    (name : String) : (d.withPolicy p).signature? category name = d.signature? category name := by
  cases category <;> rfl

@[simp] theorem recognises_withPolicy (d : Dialect) (p : Policy) (f : Feature) :
    (d.withPolicy p).recognises f = d.recognises f := by
  rcases f with ⟨category, name⟩ | _ | _ | _
  · simp [recognises]
  · rfl
  · rfl
  · rfl

@[simp] theorem policyOn_withPolicy (d : Dialect) (p : Policy) (f : Feature) :
    (d.withPolicy p).policyOn f = p := by
  rcases f with ⟨_ | _, _⟩ | _ | _ | _ <;> rfl

def rejected? (d : Dialect) (ms : List Mention) : Option Mention :=
  ms.find? fun m => d.policyOn m.feature = .reject

@[simp] theorem rejected?_nil (d : Dialect) : d.rejected? [] = none := rfl

theorem rejected?_append (d : Dialect) (ms ns : List Mention) :
    d.rejected? (ms ++ ns) = (d.rejected? ms).or (d.rejected? ns) := List.find?_append

end Dialect

namespace Parse

open CssSelector.Parse.Parser

section
variable {α β : Type}

/-- How a step comes out under a dialect, told from the one where everything is flagged. -/
def Filters (d : Dialect) (flagged s : Step α) : Prop :=
  ∃ ms : List Mention, (∀ m ∈ ms, ¬d.recognises m.feature) ∧
    flagged.warnings = ms.map Mention.warning ∧
    (∀ m, d.rejected? ms = some m → s.result = .error (.unknown m.feature)) ∧
    (d.rejected? ms = none → s = { flagged with warnings := d.warnings ms })

theorem Filters.bind {p q : Parser α} {f g : α → Parser β} {d : Dialect} {source : List Char}
    {ts : List Token}
    (hp : Filters d (p.run ⟨d.withPolicy .warn, source⟩ ts) (q.run ⟨d, source⟩ ts))
    (hf : ∀ a us, us <:+ ts →
      Filters d ((f a).run ⟨d.withPolicy .warn, source⟩ us) ((g a).run ⟨d, source⟩ us)) :
    Filters d ((p >>= f).run ⟨d.withPolicy .warn, source⟩ ts) ((q >>= g).run ⟨d, source⟩ ts) := by
  obtain ⟨ms, hu, hw, hs, hn⟩ := hp
  have hsuffix := p.suffix ⟨d.withPolicy .warn, source⟩ ts
  rcases hr : p.run ⟨d.withPolicy .warn, source⟩ ts with ⟨e | a, ws, us⟩
  · rw [hr] at hw hn
    rw [run_bind_error hr]
    refine ⟨ms, hu, hw, fun m hm => result_bind_error (hs m hm) g, fun hm => ?_⟩
    rw [run_bind_error (hn hm)]
  · rw [hr] at hw hn hsuffix
    obtain ⟨ns, ku, kw, ks, kn⟩ := hf a us hsuffix
    rw [run_bind_ok hr]
    refine ⟨ms ++ ns, ?_, ?_, fun m hm => ?_, fun hm => ?_⟩
    · exact fun m hm => (List.mem_append.1 hm).elim (hu m) (ku m)
    · rw [List.map_append, ← hw, ← kw]
    · rw [Dialect.rejected?_append] at hm
      cases hms : d.rejected? ms with
      | some m' =>
        rw [hms, Option.some_or] at hm
        cases hm
        exact result_bind_error (hs m hms) g
      | none =>
        rw [hms, Option.none_or] at hm
        rw [run_bind_ok (hn hms)]
        exact ks m hm
    · rw [Dialect.rejected?_append, Option.or_eq_none_iff] at hm
      rw [run_bind_ok (hn hm.1), kn hm.2, Dialect.warnings_append]

theorem Filters.refl {d : Dialect} {s : Step α} (h : s.warnings = []) : Filters d s s := by
  refine ⟨[], by simp, h, by simp, fun _ => ?_⟩
  rw [Dialect.warnings_nil, ← h]

theorem Filters.judge (d : Dialect) (source : List Char) (f : Feature) (n : Nat)
    (ts : List Token) : Filters d ((judge f n).run ⟨d.withPolicy .warn, source⟩ ts)
      ((judge f n).run ⟨d, source⟩ ts) := by
  rw [run_judge, run_judge]
  by_cases h : d.recognises f
  · refine ⟨[], by simp, ?_, by simp, fun _ => ?_⟩
    · simp [Dialect.admits, Dialect.warnings, Dialect.flags, h]
    · simp [Dialect.admits, Dialect.warnings, Dialect.flags, h]
  · refine ⟨[⟨f, n⟩], by simpa using h, ?_, ?_, ?_⟩
    · simp [Dialect.admits, Dialect.warnings, Dialect.flags, h]
    · intro m hm
      obtain rfl := List.mem_singleton.1 (List.mem_of_find?_eq_some hm)
      have hp : d.policyOn f = .reject := by simpa using List.find?_some hm
      simp [Dialect.admits, h, hp]
    · intro hn
      have hp : d.policyOn f ≠ .reject := by simpa [Dialect.rejected?] using hn
      simp [Dialect.admits, hp]

/-- Runs where everything is flagged beside those under the policies of the dialect. -/
def filtering (d : Dialect) (source : List Char) : Simulation where
  left := ⟨d.withPolicy .warn, source⟩
  right := ⟨d, source⟩
  place := id
  Rel := Filters d
  signature category name := (d.signature?_withPolicy .warn category name).symm
  size := rfl
  slice _ _ := rfl
  ok a ts := by
    rw [Token.move_id, List.map_id]
    exact .refl rfl
  error e ts := by
    rw [Token.move_id, List.map_id, ParseError.move_id]
    exact .refl rfl
  judged f n ts := by
    rw [Token.move_id, List.map_id]
    exact .judge d source f n ts
  chained {α β p q f g ts} hp hf := by
    simp only [Token.move_id, List.map_id] at hp hf ⊢
    exact hp.bind hf

theorem filters_wholeSelector (d : Dialect) (source : List Char) (ts : List Token) :
    Filters d (wholeSelector.run ⟨d.withPolicy .warn, source⟩ ts)
      (wholeSelector.run ⟨d, source⟩ ts) := by
  have h := (filtering d source).wholeSelector ts
  rw [Simulation.Agrees, show (filtering d source).place = id from rfl, Token.move_id,
    List.map_id] at h
  exact h

end

end Parse

namespace Dialect

open Parse

theorem warnings_eq_filter {d : Dialect} {ms : List Mention}
    (h : ∀ m ∈ ms, ¬d.recognises m.feature) :
    d.warnings ms = (ms.filter fun m => d.policyOn m.feature = .warn).map Mention.warning := by
  rw [warnings]
  congr 1
  refine List.filter_congr fun m hm => ?_
  simp [flags, h m hm]

/-- Under the policies of a dialect a text is parsed as it is where everything that is not
recognised is flagged, but for the first construct that they reject and the warnings that they do
not give. -/
theorem parse_filters (d : Dialect) (text : String) :
    match (d.withPolicy .warn).parse text with
    | .ok r => ∃ ms : List Mention, r.warnings = ms.map Mention.warning ∧
      (∀ ns : List Mention, r.warnings = ns.map Mention.warning → ns = ms) ∧
      d.parse text = match ms.find? fun m => d.policyOn m.feature = .reject with
        | some m => .error (.unknown m.feature)
        | none => .ok ⟨r.selector,
          (ms.filter fun m => d.policyOn m.feature = .warn).map Mention.warning⟩
    | .error e => ∃ e', d.parse text = .error e' ∧ (e' = e ∨ ∃ f, e' = .unknown f) := by
  cases ht : tokenize text with
  | error e =>
    rw [parse_of_lexError ht]
    exact ⟨_, parse_of_lexError ht, .inl rfl⟩
  | ok ts =>
    rw [parse_of_tokenize ht, parse_of_tokenize ht, parseTokens, parseTokens]
    obtain ⟨ms, hu, hw, hs, hn⟩ := filters_wholeSelector d text.toList ts.dropLast
    rcases hr : wholeSelector.run ⟨d.withPolicy .warn, text.toList⟩ ts.dropLast with ⟨e | s, ws, us⟩
    · rw [hr] at hn
      cases hd : d.rejected? ms with
      | some m =>
        rw [hs m hd]
        exact ⟨_, rfl, .inr ⟨m.feature, rfl⟩⟩
      | none =>
        rw [hn hd]
        exact ⟨e, rfl, .inl rfl⟩
    · rw [hr] at hw hn
      refine ⟨ms, hw, fun ns hns => ?_, ?_⟩
      · exact (List.map_inj_right fun _ _ h => Mention.warning_injective h).1 (hns.symm.trans hw)
      · rw [← rejected?]
        cases hd : d.rejected? ms with
        | some m =>
          rw [hs m hd]
          rfl
        | none =>
          rw [hn hd, ← warnings_eq_filter hu]
          rfl

end Dialect
end CssSelector
