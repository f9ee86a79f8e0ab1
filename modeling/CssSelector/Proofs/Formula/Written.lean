import CssSelector.Proofs.Formula.Microsyntax
import CssSelector.Proofs.Written

set_option autoImplicit false

namespace CssSelector

open Text

theorem toLower_of_isDigit {c : Char} (h : c.isDigit) : c.toLower = c := by
  simp only [Char.isDigit, Bool.and_eq_true, decide_eq_true_eq, UInt32.le_iff_toNat_le] at h
  have hhi : c.toNat ≤ 57 := h.2
  unfold Char.toLower
  refine dif_neg fun hu => ?_
  have hlo : 65 ≤ c.toNat := UInt32.le_iff_toNat_le.1 hu.1
  omega

namespace Formula

def isWritten (c : Char) : Bool := c.isDigit || ['+', '-', 'n'].contains c

theorem isWritten_spec {c : Char} (h : isWritten c) : isBlank c = false ∧ c.toLower = c := by
  rcases Bool.or_eq_true_iff.1 h with hd | hm
  · exact ⟨Bool.eq_false_iff.2 (not_isBlank_of_isDigit hd), toLower_of_isDigit hd⟩
  · have hall : ∀ c ∈ ['+', '-', 'n'], isBlank c = false ∧ c.toLower = c :=
      List.all_iff_forall_prop.1 (by decide)
    exact hall c (List.contains_iff_mem.1 hm)

theorem Integer.isWritten {cs : List Char} {z : Int} (h : Integer cs z) : ∀ c ∈ cs, isWritten c := by
  intro c hc
  obtain hd | ⟨s, hs⟩ := h.mem c hc
  · simp [Formula.isWritten, hd]
  · cases hs <;> rfl

theorem digits_toDigits (n : Nat) : Digits (Nat.toDigits 10 n) n where
  nonempty := Nat.toDigits_ne_nil
  digits _ h := Nat.isDigit_of_mem_toDigits (by decide) (by decide) h
  value := Nat.ofDigitChars_ten_toDigits

theorem exists_signedInt (z : Int) :
    ∃ c s, ∃ n : Nat, Sign c s ∧ z = s * n ∧ signedInt z = c :: Nat.toDigits 10 n := by
  cases z with
  | ofNat n => exact ⟨'+', 1, n, .plus, (Int.one_mul n).symm, rfl⟩
  | negSucc n => exact ⟨'-', -1, n + 1, .minus, by omega, rfl⟩

theorem integer_signedInt (z : Int) : Integer (signedInt z) z := by
  obtain ⟨c, s, n, hs, hz, hwritten⟩ := exists_signedInt z
  rw [hwritten, hz]
  exact .signed hs (digits_toDigits n)

theorem constant_signedInt (z : Int) : Constant (signedInt z) z := by
  obtain ⟨c, s, n, hs, hz, hwritten⟩ := exists_signedInt z
  have hblank : ∀ b ∈ [], isBlank b := nofun
  rw [hwritten, hz]
  exact .signed hblank hs hblank (digits_toDigits n)

theorem integer_writtenInt (z : Int) : Integer (writtenInt z) z := by
  cases z with
  | ofNat n => exact .unsigned (digits_toDigits n)
  | negSucc n => exact integer_signedInt (.negSucc n)

theorem isWritten_of_mem {f : Formula} {c : Char} (h : c ∈ f.written) : isWritten c := by
  rcases List.mem_append.1 h with h | h
  · exact (integer_writtenInt f.a).isWritten c h
  · rcases List.mem_cons.1 h with rfl | h
    · rfl
    · exact (integer_signedInt f.b).isWritten c h

theorem denotes_written (f : Formula) : Denotes f.written f :=
  .linear (.integer (integer_writtenInt f.a)) (constant_signedInt f.b)

/-- A formula that is written out is read back. -/
theorem read?_written {f : Formula} (h : f.Writable) : read? f.written = some f := by
  have hdenotes := denotes_written f
  have hlower : f.written.map Char.toLower = f.written :=
    (List.map_congr_left fun c hc => (isWritten_spec (isWritten_of_mem hc)).2).trans (List.map_id _)
  refine read?_of_denotes ?_ h.1 ⟨Int.le_of_lt h.2.1, h.2.2⟩ fun _ => Int.ne_of_gt h.2.1
  rwa [hdenotes.tight.trim_eq, hlower]

end Formula
end CssSelector
