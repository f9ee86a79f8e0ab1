import CssSelector.Token.Scan
import Mathlib

set_option autoImplicit false

namespace CssSelector

theorem Text.toNat_toLower (c : Char) :
    c.toLower.toNat = if 65 ≤ c.toNat ∧ c.toNat ≤ 90 then c.toNat + 32 else c.toNat := by
  have hcase : (c.val ≥ 'A'.val ∧ c.val ≤ 'Z'.val) ↔ 65 ≤ c.toNat ∧ c.toNat ≤ 90 := by
    simp only [ge_iff_le, UInt32.le_iff_toNat_le, Char.reduceVal, UInt32.reduceToNat]
    rfl
  unfold Char.toLower
  split
  case isTrue h =>
    have hc := hcase.1 h
    rw [if_pos hc]
    change (c.val + 32).toNat = c.val.toNat + 32
    have hle : c.val.toNat ≤ 90 := hc.2
    have hadd := UInt32.toNat_add c.val 32
    simp only [UInt32.reduceToNat] at hadd
    omega
  case isFalse h => rw [if_neg (mt hcase.2 h)]

namespace Scan

theorem isHexDigit_iff (c : Char) : isHexDigit c = true ↔
    48 ≤ c.toNat ∧ c.toNat ≤ 57 ∨ 97 ≤ c.toNat ∧ c.toNat ≤ 102 ∨ 65 ≤ c.toNat ∧ c.toNat ≤ 70 := by
  unfold isHexDigit Char.isDigit
  simp only [Char.le_def, UInt32.le_iff_toNat_le, Bool.or_eq_true, Bool.and_eq_true,
    decide_eq_true_eq, Char.reduceVal, UInt32.reduceToNat, or_assoc]
  rfl

theorem hexDigit_eq (c : Char) : hexDigit c =
    if 48 ≤ c.toNat ∧ c.toNat ≤ 57 then c.toNat - 48
    else if c.toNat < 97 then c.toNat - 55 else c.toNat - 87 := by
  have hdigit : c.isDigit = true ↔ 48 ≤ c.toNat ∧ c.toNat ≤ 57 := by
    unfold Char.isDigit
    simp only [UInt32.le_iff_toNat_le, Bool.and_eq_true, decide_eq_true_eq]
    rfl
  unfold hexDigit
  simp only [hdigit]

theorem hexDigit_toLower {c : Char} (h : isHexDigit c.toLower) :
    isHexDigit c ∧ hexDigit c.toLower = hexDigit c := by
  rw [isHexDigit_iff, Text.toNat_toLower] at h
  rw [isHexDigit_iff, hexDigit_eq, hexDigit_eq, Text.toNat_toLower]
  split_ifs at h ⊢ <;> omega

theorem digitChar_spec {n : Nat} (h : n < 16) :
    isHexDigit n.digitChar ∧ hexDigit n.digitChar = n ∧ n.digitChar.toLower = n.digitChar := by
  have hall : ∀ n < 16, isHexDigit (Nat.digitChar n) ∧ hexDigit (Nat.digitChar n) = n ∧
      (Nat.digitChar n).toLower = Nat.digitChar n := by decide
  exact hall n h

theorem exists_digitChar_of_mem {n : Nat} {d : Char} (h : d ∈ Nat.toDigits 16 n) :
    ∃ k < 16, d = k.digitChar := by
  induction n using Nat.strongRecOn with
  | _ n ih =>
    by_cases hn : n < 16
    · rw [Nat.toDigits_of_lt_base hn] at h
      exact ⟨n, hn, List.mem_singleton.1 h⟩
    · rw [Nat.toDigits_of_base_le (by decide) (by omega)] at h
      rcases List.mem_append.1 h with hd | hd
      · exact ih (n / 16) (by omega) hd
      · exact ⟨n % 16, Nat.mod_lt n (by decide), List.mem_singleton.1 hd⟩

theorem isHexDigit_of_mem_toDigits {n : Nat} {d : Char} (h : d ∈ Nat.toDigits 16 n) :
    isHexDigit d := by
  obtain ⟨k, hk, rfl⟩ := exists_digitChar_of_mem h
  exact (digitChar_spec hk).1

theorem hexValue_append (ds : List Char) (d : Char) :
    hexValue (ds ++ [d]) = 16 * hexValue ds + hexDigit d := by
  simp [hexValue]

theorem hexValue_toDigits (n : Nat) : hexValue (Nat.toDigits 16 n) = n := by
  induction n using Nat.strongRecOn with
  | _ n ih =>
    by_cases h : n < 16
    · rw [Nat.toDigits_of_lt_base h]
      simp [hexValue, (digitChar_spec h).2.1]
    · have hlast := (digitChar_spec (Nat.mod_lt n (by decide : 0 < 16))).2.1
      rw [Nat.toDigits_of_base_le (by decide) (by omega), hexValue_append, ih _ (by omega), hlast]
      exact Nat.div_add_mod n 16

/-- The digits of a number, in either case and with any zeros in front. -/
def HexDigits (ds : List Char) (n : Nat) : Prop :=
  ∃ zeros, ds.map Char.toLower = List.replicate zeros '0' ++ Nat.toDigits 16 n

theorem hexValue_replicate_append (zeros : Nat) (ds : List Char) :
    hexValue (List.replicate zeros '0' ++ ds) = hexValue ds := by
  induction zeros with
  | zero => rfl
  | succ k ih =>
    rw [← ih]
    rfl

section
variable {ds : List Char} {n : Nat}

theorem HexDigits.digits (h : HexDigits ds n) :
    ∀ d ∈ ds, isHexDigit d ∧ hexDigit d.toLower = hexDigit d := by
  obtain ⟨zeros, h⟩ := h
  intro d hd
  have hmem : d.toLower ∈ List.replicate zeros '0' ++ Nat.toDigits 16 n :=
    h ▸ List.mem_map_of_mem hd
  refine hexDigit_toLower ?_
  rcases List.mem_append.1 hmem with hz | hn
  · rw [List.eq_of_mem_replicate hz]
    rfl
  · exact isHexDigit_of_mem_toDigits hn

theorem HexDigits.isHexDigit (h : HexDigits ds n) : ∀ d ∈ ds, isHexDigit d :=
  fun d hd => (h.digits d hd).1

theorem HexDigits.hexValue_eq (h : HexDigits ds n) : hexValue ds = n := by
  have hlower : hexValue (ds.map Char.toLower) = hexValue ds := by
    unfold hexValue
    rw [List.foldl_map]
    exact List.foldl_ext _ _ 0 fun m d hd => congrArg (16 * m + ·) (h.digits d hd).2
  obtain ⟨zeros, hds⟩ := h
  rw [← hlower, hds, hexValue_replicate_append, hexValue_toDigits]

theorem HexDigits.ne_nil (h : HexDigits ds n) : ds ≠ [] := by
  rintro rfl
  obtain ⟨zeros, h⟩ := h
  simp [Nat.toDigits_ne_nil] at h

theorem hexDigits_toDigits (n : Nat) : HexDigits (Nat.toDigits 16 n) n := by
  refine ⟨0, (List.map_congr_left fun d hd => ?_).trans (List.map_id _)⟩
  obtain ⟨k, hk, rfl⟩ := exists_digitChar_of_mem hd
  exact (digitChar_spec hk).2.2

theorem HexDigits.zero_cons (h : HexDigits ds n) : HexDigits ('0' :: ds) n := by
  obtain ⟨zeros, h⟩ := h
  exact ⟨zeros + 1, congrArg ('0' :: ·) h⟩

theorem hexDigits_pair (h : n < 256) :
    HexDigits [(n / 16).digitChar, (n % 16).digitChar] n := by
  have hdigits := hexDigits_toDigits n
  by_cases hn : n < 16
  · rw [Nat.toDigits_of_lt_base hn] at hdigits
    rw [Nat.div_eq_of_lt hn, Nat.mod_eq_of_lt hn]
    exact hdigits.zero_cons
  · rwa [Nat.toDigits_of_base_le (by decide) (by omega), Nat.toDigits_of_lt_base (by omega)] at hdigits

end
end Scan
end CssSelector
