import CssSelector.Proofs.Lexing
import CssSelector.Proofs.Reads.Complete
import CssSelector.Proofs.Simulation

set_option autoImplicit false

namespace CssSelector
namespace Parse

open CssSelector.Parse.Parser Text

section
variable {α : Type}

def Step.move (f : Nat → Nat) (s : Step α) : Step α :=
  ⟨s.result.mapError (ParseError.move f), s.warnings.map (Warning.move f),
    s.rest.map (Token.move f)⟩

theorem Step.move_bind {β : Type} {p q : Parser α} {f g : α → Parser β} {c c' : Context}
    {place : Nat → Nat} {ts ts' : List Token} (hp : q.run c' ts' = (p.run c ts).move place)
    (hf : ∀ a us, us <:+ ts →
      (g a).run c' (us.map (Token.move place)) = ((f a).run c us).move place) :
    (q >>= g).run c' ts' = ((p >>= f).run c ts).move place := by
  have hs := p.suffix c ts
  rw [run_bind, run_bind, hp]
  rcases hr : p.run c ts with ⟨e | a, ws, us⟩
  · rfl
  · rw [hr] at hs
    have h := hf a us hs
    simp [Step.move, Except.mapError, h]

/-- A text beside the same one with another text in front of it. -/
def delaying (d : Dialect) (front source : List Char) : Simulation where
  left := ⟨d, source⟩
  right := ⟨d, front ++ source⟩
  place := (byteSize front + ·)
  Rel s s' := s' = s.move (byteSize front + ·)
  signature _ _ := rfl
  size := byteSize_append front source
  slice start stop := slice?_add front source start stop
  ok _ _ := rfl
  error _ _ := rfl
  judged f n ts := by
    rw [run_judge, run_judge]
    split
    · simp only [Step.move, ← Dialect.warnings_move]
      rfl
    · rfl
  chained hp hf := Step.move_bind hp hf

def Step.behind {β : Type} (f : α → β) (ws : List Warning) (s : Step α) : Step β :=
  ⟨s.result.map f, ws ++ s.warnings, s.rest⟩

theorem Step.behind_id (s : Step α) : s.behind id [] = s := by
  rcases s with ⟨_ | _, _, _⟩ <;> rfl

theorem Step.behind_behind {β γ : Type} (f : α → β) (g : β → γ) (ws vs : List Warning)
    (s : Step α) : (s.behind f vs).behind g ws = s.behind (g ∘ f) (ws ++ vs) := by
  rcases s with ⟨_ | _, _, _⟩ <;> simp [Step.behind, Except.map]

theorem run_return {β : Type} (p : Parser α) (f : α → β) (c : Context) (ts : List Token) :
    (do return f (← p) : Parser β).run c ts = (p.run c ts).behind f [] := by
  rcases h : p.run c ts with ⟨_ | _, _, _⟩
  · exact run_bind_error h _
  · exact run_return_of_ok h

theorem run_closed_behind {p : Parser α} {c : Context} {ts vs : List Token} {f : α → α}
    {ws : List Warning} (h : p.run c ts = (p.run c vs).behind f ws) :
    (closed p).run c ts = ((closed p).run c vs).behind f ws := by
  unfold closed
  rw [run_bind, run_bind, h]
  rcases p.run c vs with ⟨_ | a, ws', us⟩
  · rfl
  · cases us <;> simp [Step.behind, Except.map]

end

section
variable {c : Context} {nested : Parser Selector} {xs ys us vs : List Token} {t : Token}
  {ms : List Mention} {ws : List Warning}

theorem Reads.endsRule {rs : List Rule} (h : Reads c xs (.rules rs) ms) (ht : t.kind = .comma) :
    EndsRule (xs ++ t :: vs) := by
  cases h with
  | noRules => simpa [EndsRule] using .inl ht
  | rules hc _ _ _ => simpa [EndsRule] using .inl hc

theorem manyFrom_ruleAt (previous previous' : Option Rule) :
    manyFrom (fun _ => ruleAt nested) previous = manyFrom (fun _ => ruleAt nested) previous' := by
  apply Parser.ext
  funext c ts
  change manyAfter _ c previous ts = manyAfter _ c previous' ts
  cases ts with
  | nil => rw [manyAfter_nil, manyAfter_nil]
  | cons t ts => rw [manyAfter, manyAfter]

theorem run_manyFrom_comma (ht : t.kind = .comma) (previous : Option Rule) :
    (manyFrom (fun _ => ruleAt nested) previous).run c (t :: vs) = (rules nested).run c vs := by
  have hp : (fun _ => ruleAt nested) previous t = some do return some (← spacedRule nested) :=
    if_pos ht
  rw [run_manyFrom_cons hp, bind_assoc]
  simp only [pure_bind]
  rw [funext fun r => congrArg (· >>= _) (manyFrom_ruleAt (some r) none)]
  rfl

theorem run_rules {r : Rule} (h : (spacedRule nested).run c xs = ⟨.ok r, ws, us⟩) :
    (rules nested).run c xs =
      ((manyFrom (fun _ => ruleAt nested) none).run c us).behind (r :: ·) ws := by
  rw [rules, run_bind_ok h]
  rw [run_return]
  rfl

theorem Reads.run_rules_comma {rs : List Rule} (h : Reads c xs (.rules rs) ms)
    (hp : c.dialect.Passes ms ws) {depth : Nat} (hd : xs.countP opensArgument ≤ depth)
    (ht : t.kind = .comma) (previous : Option Rule) :
    (manyFrom (fun _ => ruleAt (selectorTo depth)) previous).run c (xs ++ t :: vs) =
      ((Parse.rules (selectorTo depth)).run c vs).behind (rs ++ ·) ws := by
  induction rs generalizing xs ms ws previous with
  | nil =>
    cases h
    obtain rfl := Dialect.Passes.nil_iff.1 hp
    rw [List.nil_append, run_manyFrom_comma ht]
    exact (Step.behind_id _).symm
  | cons r rs ih =>
    cases h with
    | @rules t' s xs ys _ _ ms ns ht' hs hx hy =>
      obtain ⟨ws₁, ws₂, rfl, hp, hq⟩ := hp.of_append
      simp only [List.countP_cons, List.countP_append] at hd
      have hr := hx.parsed hp depth (by omega) (ys ++ t :: vs) (hy.endsRule ht)
      obtain ⟨u, zs, rfl, hne⟩ := hx.rule_head
      rw [List.cons_append, List.append_assoc, List.append_assoc, run_manyFrom_comma ht',
        run_rules (run_spacedRule hs (by simpa using hne) hr), ih hy hq (by omega) none,
        Step.behind_behind]
      rfl

/-- A selector in front of a comma is parsed as it is at the end, and the selector behind the comma
as if nothing stood before. -/
theorem Reads.run_selector_comma {s : Selector} (h : Reads c xs (.selector s) ms)
    (hp : c.dialect.Passes ms ws) {depth : Nat} (hd : xs.countP opensArgument < depth)
    (ht : t.kind = .comma) : (selectorTo depth).run c (xs ++ t :: vs) =
      ((selectorTo depth).run c vs).behind (fun s' => ⟨s.rules ++ s'.rules⟩) ws := by
  cases depth with
  | zero => contradiction
  | succ depth =>
    cases h with
    | @selector s xs ys r rs ms ns hs hx hy =>
      obtain ⟨ws₁, ws₂, rfl, hp, hq⟩ := hp.of_append
      simp only [List.countP_append] at hd
      have hr := hx.parsed hp depth (by omega) (ys ++ t :: vs) (hy.endsRule ht)
      obtain ⟨u, zs, rfl, hne⟩ := hx.rule_head
      rw [List.append_assoc, List.append_assoc, selectorTo, run_return, run_return,
        run_rules (run_spacedRule hs (by simpa using hne) hr),
        hy.run_rules_comma hq (by omega) ht none]
      simp only [Step.behind_behind, List.nil_append, List.append_nil]
      rfl

end

end Parse

open Parse Text

namespace Dialect

theorem tokenize_append_comma {s : String} {ts : List Token} (h : tokenize s = .ok ts)
    (hc : ¬endsInComment s) (t : String) :
    tokenize (s ++ "," ++ t) = match tokenize t with
      | .ok us => .ok (ts.dropLast ++ ⟨.comma, ",", byteSize s.toList⟩ ::
          us.map (Token.move (byteSize (s ++ ",").toList + ·)))
      | .error e => .error (e.move (byteSize (s ++ ",").toList + ·)) := by
  have hs : Lexes 0 s.toList ts.dropLast (',' :: t.toList) :=
    .of_tokenize h hc (Scan.breaks_cons (by decide) _)
  have hcomma : Lexes (0 + byteSize s.toList) [','] [⟨.comma, ",", 0 + byteSize s.toList⟩]
      t.toList := .token (by decide) rfl
  have hst : Lexes 0 (s ++ ",").toList
      (ts.dropLast ++ [⟨.comma, ",", 0 + byteSize s.toList⟩]) t.toList := by
    rw [String.toList_append]
    exact hs.append hcomma
  rw [tokenize_append hst, Nat.zero_add]
  cases tokenize t <;> simp

theorem parseTokens_of_run {d : Dialect} {source source' : List Char} {ts us : List Token}
    {place : Nat → Nat} {f : Selector → Selector} {ws : List Warning}
    (h : wholeSelector.run ⟨d, source'⟩ us =
      ((wholeSelector.run ⟨d, source⟩ ts).move place).behind f ws) :
    d.parseTokens source' us = match d.parseTokens source ts with
      | .ok r => .ok ⟨f r.selector, ws ++ r.warnings.map (Warning.move place)⟩
      | .error e => .error (e.move place) := by
  unfold parseTokens
  dsimp only
  rw [h]
  rcases wholeSelector.run ⟨d, source⟩ ts with ⟨_ | _, _, _⟩ <;> rfl

theorem run_wholeSelector_comma {d : Dialect} {s : Selector} {front source : List Char}
    {xs us : List Token} {k : Token} {ms : List Mention} {ws : List Warning}
    (h : Reads ⟨d, front ++ source⟩ xs (.selector s) ms) (hp : d.Passes ms ws)
    (hk : k.kind = .comma) :
    wholeSelector.run ⟨d, front ++ source⟩
        (xs ++ k :: us.map (Token.move (byteSize front + ·))) =
      ((wholeSelector.run ⟨d, source⟩ us).move (byteSize front + ·)).behind
        (fun s' => ⟨s.rules ++ s'.rules⟩) ws := by
  have hcount : (us.map (Token.move (byteSize front + ·))).countP opensArgument =
      us.countP opensArgument := by
    rw [List.countP_map]
    rfl
  rw [run_wholeSelector, run_wholeSelector, List.countP_append, List.countP_cons, hcount]
  generalize hdepth : xs.countP opensArgument + (us.countP opensArgument + _) + 1 = depth
  have hsim : (delaying d front source).Agrees us
      (closed (selectorTo (us.countP opensArgument + 1))) (closed (selectorTo depth)) :=
    Simulation.closed (Simulation.selectorTo _ _ (Nat.le_refl _) (by omega) us (Nat.lt_succ_self _))
  have hd : xs.countP opensArgument < depth := by omega
  rw [run_closed_behind (h.run_selector_comma hp hd hk)]
  exact congrArg (Step.behind _ ws) hsim

/-- A text that is accepted, a comma and another text: the rules and warnings of the first one come
before those of the other one, and an error in that is the error in all. -/
theorem parse_append_comma {d : Dialect} {s : String} {r : Reading} (h : d.parse s = .ok r)
    (hc : ¬endsInComment s) (t : String) :
    d.parse (s ++ "," ++ t) =
      match d.parse t with
      | .ok r' => .ok ⟨⟨r.selector.rules ++ r'.selector.rules⟩,
          r.warnings ++ r'.warnings.map (Warning.move (byteSize s.toList + 1 + ·))⟩
      | .error e => .error (e.move (byteSize s.toList + 1 + ·)) := by
  obtain ⟨ts, ht, ms, hr, hp⟩ := parse_eq_ok.1 h
  have htokens := tokenize_append_comma ht hc t
  have hsize : byteSize (s ++ ",").toList = byteSize s.toList + 1 := by simp [byteSize]; rfl
  rw [← hsize]
  cases hu : tokenize t with
  | error e =>
    rw [hu] at htokens
    rw [parse_of_lexError htokens, parse_of_lexError hu]
    rfl
  | ok us =>
    rw [hu] at htokens
    rw [parse_of_tokenize htokens, parse_of_tokenize hu]
    have hne : us ≠ [] := by
      obtain ⟨-, vs, e, rfl, -⟩ := tokenize_eq_ok hu
      simp
    have hread : Reads ⟨d, (s ++ ",").toList ++ t.toList⟩ ts.dropLast
        (.selector r.selector) ms := by
      have hk : Kept ⟨d, s.toList⟩ ⟨d, (s ++ ",").toList ++ t.toList⟩ id ts.dropLast := by
        intro x _ y _ text htext
        rw [String.toList_append, List.append_assoc]
        exact slice?_append_right htext _
      simpa using hr.move hk fun _ _ => rfl
    rw [List.dropLast_append_of_ne_nil (by simp), List.dropLast_cons_of_ne_nil (by simpa using hne),
      ← List.map_dropLast, String.toList_append]
    exact parseTokens_of_run (run_wholeSelector_comma hread hp rfl)

/-- The comma in the comment is none, and the error behind the other one is found where it is. -/
theorem parse_comma_of_comment :
    let d : Dialect := ⟨.empty, .empty, .accept, .accept, {}, {}⟩
    d.parse "a /*,*/" = .ok ⟨⟨[⟨[.tagName "a"]⟩]⟩, []⟩ ∧ ¬endsInComment "a /*,*/" ∧
      d.parse ".b]" = .error (.malformed (.unexpected "\"]\"") 2) ∧
      d.parse ("a /*,*/" ++ "," ++ ".b]") = .error (.malformed (.unexpected "\"]\"") 10) := by
  intro d
  have hs : d.parse "a /*,*/" = .ok ⟨⟨[⟨[.tagName "a"]⟩]⟩, []⟩ := by cbv
  have hc : endsInComment "a /*,*/" = false := by cbv
  have ht : d.parse ".b]" = .error (.malformed (.unexpected "\"]\"") 2) := by cbv
  have hst := parse_append_comma hs (by simp [hc]) ".b]"
  rw [ht] at hst
  exact ⟨hs, by simp [hc], ht, hst⟩

end Dialect
end CssSelector
