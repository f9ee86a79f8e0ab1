import CssSelector.Proofs.Reported
import CssSelector.Proofs.Warnings

/-!
Reporting all warnings of a reading. No two of them are displayed alike, because the offset can be
told from what is displayed (`position_eq_of_describe`) and no two warnings are at one offset. So a
memory that was cleared counts each of them, and one that has met them counts none
(`Reported.noteAll_of_parse`).
-/

set_option autoImplicit false

namespace CssSelector

theorem eq_of_toDigits {n k : Nat} (h : Nat.toDigits 10 n = Nat.toDigits 10 k) : n = k :=
  calc n = Nat.ofDigitChars 10 (Nat.toDigits 10 n) 0 := Nat.ofDigitChars_ten_toDigits.symm
    _ = Nat.ofDigitChars 10 (Nat.toDigits 10 k) 0 := by rw [h]
    _ = k := Nat.ofDigitChars_ten_toDigits

theorem digits_eq_of_append {xs ys ds es : List Char} (hd : ∀ d ∈ ds, d.isDigit)
    (he : ∀ e ∈ es, e.isDigit) (h : xs ++ ' ' :: ds = ys ++ ' ' :: es) : ds = es := by
  have hlast (zs cs : List Char) (hc : ∀ c ∈ cs, c.isDigit) :
      (zs ++ ' ' :: cs).reverse.takeWhile Char.isDigit = cs.reverse := by
    have hblank : Char.isDigit ' ' = false := rfl
    rw [List.reverse_append, List.reverse_cons, List.append_assoc,
      List.takeWhile_append_of_pos (by simpa using hc)]
    simp [hblank]
  have hdigits := hlast xs ds hd
  rw [h, hlast ys es he] at hdigits
  exact (List.reverse_inj.1 hdigits).symm

/-- Whatever is quoted in the message, the offset that is displayed is the last one. -/
theorem position_eq_of_describe {v w : Warning} (h : v.describe = w.describe) :
    v.position = w.position := by
  have htext (u : Warning) : u.describe.toList =
      (u.message.toList ++ " (at offset".toList) ++ ' ' :: Nat.toDigits 10 u.position ++ [')'] := by
    simp [Warning.describe, atOffset, Nat.toList_repr]
  have hl := congrArg String.toList h
  rw [htext, htext] at hl
  have hdigit (n : Nat) : ∀ c ∈ Nat.toDigits 10 n, c.isDigit := fun c hc =>
    Nat.isDigit_of_mem_toDigits (by decide) (by decide) hc
  exact eq_of_toDigits
    (digits_eq_of_append (hdigit _) (hdigit _) (List.append_cancel_right hl))

namespace Reported
variable {r : Reported} {component : String} {w : Warning} {ws : List Warning}

def lineOf (component : String) (w : Warning) : String := Notice.line ⟨component, w.describe⟩

theorem noteAll_cons (r : Reported) (component : String) (w : Warning) (ws : List Warning) :
    r.noteAll component (w :: ws) =
      if lineOf component w ∈ r.lines then r.noteAll component ws
      else (noteAll ⟨lineOf component w :: r.lines⟩ component ws).map (· + 1) id := by
  change (let s := r.note component w.describe
    ((s.2.noteAll component ws).1 + s.1.toNat, (s.2.noteAll component ws).2)) = _
  have hnote : r.note component w.describe = if lineOf component w ∈ r.lines then (false, r)
      else (true, ⟨lineOf component w :: r.lines⟩) := rfl
  rw [hnote]
  split
  case isTrue => rfl
  case isFalse => rfl

theorem noteAll_of_mem (h : ∀ w ∈ ws, lineOf component w ∈ r.lines) :
    r.noteAll component ws = (0, r) := by
  induction ws with
  | nil => rfl
  | cons w ws ih =>
    obtain ⟨hw, hws⟩ := List.forall_mem_cons.1 h
    rw [noteAll_cons, if_pos hw, ih hws]

theorem noteAll_of_nodup (hd : (ws.map (lineOf component)).Nodup)
    (h : ∀ w ∈ ws, lineOf component w ∉ r.lines) :
    (r.noteAll component ws).1 = ws.length := by
  induction ws generalizing r with
  | nil => rfl
  | cons w ws ih =>
    obtain ⟨hw, hws⟩ := List.forall_mem_cons.1 h
    rw [List.map_cons, List.nodup_cons] at hd
    obtain ⟨hnew, hd⟩ := hd
    rw [noteAll_cons, if_neg hw, Prod.map_fst, List.length_cons]
    refine congrArg (· + 1) (ih hd fun v hv => ?_)
    rw [List.mem_cons, not_or]
    refine ⟨fun heq => hnew ?_, hws v hv⟩
    rw [← heq]
    exact List.mem_map_of_mem hv

theorem mem_lines_noteAll (l : String) :
    l ∈ (r.noteAll component ws).2.lines ↔ l ∈ r.lines ∨ l ∈ ws.map (lineOf component) := by
  induction ws generalizing r with
  | nil => simp [noteAll]
  | cons w ws ih =>
    rw [noteAll_cons, List.map_cons, List.mem_cons]
    split
    case isTrue hw =>
      rw [ih]
      exact ⟨Or.imp_right .inr, fun h => h.elim .inl fun h => h.elim (fun h => .inl (h ▸ hw)) .inr⟩
    case isFalse =>
      rw [Prod.map_snd, id, ih, List.mem_cons]
      tauto

theorem subset_lines_after {calls : List Call} (h : .clear ∉ calls) :
    r.lines ⊆ (r.after calls).lines := by
  induction calls generalizing r with
  | nil => exact List.Subset.refl _
  | cons call calls ih =>
    rw [List.mem_cons, not_or] at h
    have hstep : r.lines ⊆ (r.step call).2.lines := fun l hl =>
      (mem_lines_step r call l).2 (.inr ⟨Ne.symm h.1, hl⟩)
    exact List.Subset.trans hstep (ih h.2)

theorem describe_eq_of_lineOf {v w : Warning} (h : lineOf component v = lineOf component w) :
    v.describe = w.describe := by
  have hl := congrArg String.toList h
  simp only [lineOf, Notice.line, String.toList_append] at hl
  exact String.toList_inj.1 (List.append_cancel_left hl)

theorem nodup_map_lineOf (h : ws.Pairwise fun v w => v.position < w.position) :
    (ws.map (lineOf component)).Nodup :=
  List.pairwise_map.2 <| h.imp fun hlt heq =>
    Nat.ne_of_lt hlt (position_eq_of_describe (describe_eq_of_lineOf heq))

theorem increasing_of_parse {d : Dialect} {text : String} {reading : Reading}
    (h : d.parse text = .ok reading) :
    reading.warnings.Pairwise fun v w => v.position < w.position := by
  obtain ⟨ts, ht, hplaces⟩ := Dialect.position_warnings_of_parse h
  have htokens := (tokenize_increasing ht).sublist (List.dropLast_sublist ts)
  exact List.pairwise_map.1 ((List.pairwise_map.2 htokens).sublist hplaces)

/-- Each warning of a reading is reported once: all of them from a cleared memory on, and none any
more when they were all reported before and the memory was not cleared since. -/
theorem noteAll_of_parse {d : Dialect} {text : String} {reading : Reading}
    (h : d.parse text = .ok reading) (r : Reported) (component : String) :
    ((r.step .clear).2.noteAll component reading.warnings).1 = reading.warnings.length ∧
      ∀ calls : List Call, .clear ∉ calls →
        (((r.noteAll component reading.warnings).2.after calls).noteAll component
          reading.warnings).1 = 0 := by
  refine ⟨?_, fun calls hcalls => ?_⟩
  · exact noteAll_of_nodup (nodup_map_lineOf (increasing_of_parse h)) fun w _ => List.not_mem_nil
  · have hknown : ∀ w ∈ reading.warnings, lineOf component w ∈
        ((r.noteAll component reading.warnings).2.after calls).lines := fun w hw =>
      subset_lines_after hcalls ((mem_lines_noteAll _).2 (.inr (List.mem_map_of_mem hw)))
    rw [noteAll_of_mem hknown]

theorem noteAll_of_repeated_name :
    let d : Dialect := ⟨.empty, .empty, .warn, .accept, {}, {}⟩
    let r : Reported := ⟨["[p] Unknown pseudo-class: \"x\". (at offset 1)"]⟩
    let calls : List Call := [.report "q" ⟨"y", 3⟩, .note "p" "y"]
    ∃ reading, d.parse ":x:x" = .ok reading ∧
      reading.warnings = [⟨"Unknown pseudo-class: \"x\".", 1⟩, ⟨"Unknown pseudo-class: \"x\".", 3⟩] ∧
      ((r.step .clear).2.noteAll "p" reading.warnings).1 = 2 ∧ .clear ∉ calls ∧
      (r.noteAll "p" reading.warnings).1 = 1 ∧
      (((r.noteAll "p" reading.warnings).2.after calls).noteAll "p" reading.warnings).1 = 0 := by
  intro d r calls
  have hwarnings : (d.parse ":x:x").toOption.map Reading.warnings =
      some [⟨"Unknown pseudo-class: \"x\".", 1⟩, ⟨"Unknown pseudo-class: \"x\".", 3⟩] := by
    decide +kernel
  obtain ⟨reading, h, hws⟩ := Dialect.exists_reading_of_warnings hwarnings
  obtain ⟨hfirst, hsecond⟩ := noteAll_of_parse h r "p"
  have hcalls : .clear ∉ calls := by simp [calls]
  have hone : (r.noteAll "p" reading.warnings).1 = 1 := by
    rw [hws]
    decide +kernel
  rw [congrArg List.length hws] at hfirst
  exact ⟨reading, h, hws, hfirst, hcalls, hone, hsecond calls hcalls⟩

end Reported

end CssSelector
