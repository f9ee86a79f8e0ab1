import CssSelector.Formula
import Mathlib.Data.Bool.AllAny

set_option autoImplicit false

namespace CssSelector

open Text

theorem digits_of_natural? {ds : List Char} {n : Nat} (h : natural? ds = some n) :
    ∀ d ∈ ds, d.isDigit := by
  unfold natural? at h
  split at h
  case isTrue hd => exact List.all_eq_true.1 hd.2
  case isFalse => contradiction

theorem mem_trimStart_of_not_isBlank {x : Char} {cs : List Char} (hx : ¬isBlank x) (h : x ∈ cs) :
    x ∈ trimStart cs := by
  have hs := List.takeWhile_append_dropWhile (p := isBlank) (l := cs)
  rw [← hs, List.mem_append] at h
  rcases h with h | h
  · exact absurd (List.all_eq_true.1 List.all_takeWhile x h) hx
  · exact h

theorem mem_trim_of_not_isBlank {x : Char} {cs : List Char} (hx : ¬isBlank x) (h : x ∈ cs) :
    x ∈ trim cs := by
  unfold trim trimEnd
  rw [List.mem_reverse]
  apply mem_trimStart_of_not_isBlank hx
  rw [List.mem_reverse]
  exact mem_trimStart_of_not_isBlank hx h

theorem isBlank_toLower (x : Char) : isBlank x.toLower = isBlank x := by
  unfold Char.toLower
  split
  case isTrue h =>
    have hlo : 65 ≤ x.toNat := UInt32.le_iff_toNat_le.1 h.1
    have hhi : x.toNat ≤ 90 := UInt32.le_iff_toNat_le.1 h.2
    have hadd : (x.val + 32).toNat = x.toNat + 32 := by
      have hs := UInt32.toNat_add x.val 32
      have hx : x.val.toNat = x.toNat := rfl
      simp only [UInt32.reduceToNat] at hs
      omega
    have hblank (y : Char) (hy : 65 ≤ y.toNat) (hy' : y.toNat ≤ 122) : isBlank y = false := by
      simp [isBlank, blankRanges]
      omega
    rw [hblank x hlo (by omega)]
    refine hblank _ ?_ ?_
    · change 65 ≤ (x.val + 32).toNat
      omega
    · change (x.val + 32).toNat ≤ 122
      omega
  case isFalse => rfl

theorem toLower_ne_of_isBlank {x : Char} (h : isBlank x) : x.toLower ≠ 'f' := by
  intro hf
  rw [← isBlank_toLower, hf] at h
  contradiction

namespace Formula

/-- Digits, signs, and the letters of the keywords and of n. -/
def isLetter (c : Char) : Bool := c.isDigit || ['+', '-', 'n', 'o', 'd', 'e', 'v'].contains c

theorem isLetter_of_isDigit {c : Char} (h : c.isDigit) : isLetter c := by simp [isLetter, h]

theorem isLetter_of_integer? {cs : List Char} {z : Int} (h : integer? cs = some z) :
    ∀ x ∈ cs, isLetter x := by
  unfold integer? at h
  split at h
  · obtain ⟨n, hn, -⟩ := Option.bind_eq_some_iff.1 h
    exact List.forall_mem_cons.2 ⟨rfl, fun x hx => isLetter_of_isDigit (digits_of_natural? hn x hx)⟩
  · obtain ⟨n, hn, -⟩ := Option.bind_eq_some_iff.1 h
    exact List.forall_mem_cons.2 ⟨rfl, fun x hx => isLetter_of_isDigit (digits_of_natural? hn x hx)⟩
  · obtain ⟨n, hn, -⟩ := Option.bind_eq_some_iff.1 h
    exact fun x hx => isLetter_of_isDigit (digits_of_natural? hn x hx)

theorem isLetter_of_coefficient? {cs : List Char} {z : Int} (h : coefficient? cs = some z) :
    ∀ x ∈ cs, isLetter x := by
  unfold coefficient? at h
  split at h
  · simp
  · exact List.forall_mem_singleton.2 rfl
  · exact List.forall_mem_singleton.2 rfl
  · exact isLetter_of_integer? h

theorem isLetter_of_constant? {cs : List Char} {z : Int} (h : constant? cs = some z) :
    ∀ x ∈ cs, ¬isBlank x → isLetter x := by
  intro x hx hb
  have ht := mem_trimStart_of_not_isBlank hb hx
  have hsigned {c : Char} {ds : List Char} {n : Nat} (hc : isLetter c)
      (hn : natural? (trimStart ds) = some n) (hm : x ∈ c :: ds) : isLetter x := by
    rcases List.mem_cons.1 hm with rfl | hm
    · exact hc
    · exact isLetter_of_isDigit (digits_of_natural? hn x (mem_trimStart_of_not_isBlank hb hm))
  unfold constant? at h
  split at h
  case h_1 hnil => simp [hnil] at ht
  case h_2 ds hds =>
    obtain ⟨n, hn, -⟩ := Option.bind_eq_some_iff.1 h
    exact hsigned rfl hn (hds ▸ ht)
  case h_3 ds hds =>
    obtain ⟨b, hb', -⟩ := Option.map_eq_some_iff.1 h
    obtain ⟨n, hn, -⟩ := Option.bind_eq_some_iff.1 hb'
    exact hsigned rfl hn (hds ▸ ht)
  case h_4 => contradiction

/-- All characters of a formula are blanks or letters, in either case. -/
theorem isLetter_of_read? {cs : List Char} {f : Formula} (h : read? cs = some f) :
    ∀ x ∈ cs, ¬isBlank x → isLetter x.toLower := by
  intro x hx hb
  have hm : x.toLower ∈ (trim cs).map Char.toLower :=
    List.mem_map_of_mem (mem_trim_of_not_isBlank hb hx)
  have hb' : ¬isBlank x.toLower := by rwa [isBlank_toLower]
  unfold read? at h
  dsimp only at h
  split at h
  case isTrue ho =>
    have hall : ∀ y ∈ ['o', 'd', 'd'], isLetter y := List.all_iff_forall_prop.1 (by decide)
    exact hall _ (ho ▸ hm)
  split at h
  case isFalse.isTrue he =>
    have hall : ∀ y ∈ ['e', 'v', 'e', 'n'], isLetter y :=
      List.all_iff_forall_prop.1 (by decide)
    exact hall _ (he ▸ hm)
  have hs := List.takeWhile_append_dropWhile (p := (· ≠ 'n')) (l := (trim cs).map Char.toLower)
  split at h
  · obtain ⟨b, hb, -⟩ := Option.map_eq_some_iff.1 h
    exact isLetter_of_integer? hb _ hm
  case h_2 y rest hd =>
    obtain ⟨a, ha, h⟩ := Option.bind_eq_some_iff.1 h
    obtain ⟨b, hb, -⟩ := Option.bind_eq_some_iff.1 h
    have hn := List.head?_dropWhile_not (p := (· ≠ 'n')) (l := (trim cs).map Char.toLower)
    rw [hd] at hn
    have hy : y = 'n' := by simpa using hn
    rw [← hs, hd, List.mem_append, List.mem_cons, hy] at hm
    rcases hm with hm | hm | hm
    · exact isLetter_of_coefficient? ha _ hm
    · rw [hm]
      rfl
    · exact isLetter_of_constant? hb _ hm hb'

theorem toLower_ne_of_read? {cs : List Char} {f : Formula} (h : read? cs = some f) :
    ∀ x ∈ cs, x.toLower ≠ 'f' := by
  intro x hx hf
  have hl := isLetter_of_read? h x hx fun hb => toLower_ne_of_isBlank hb hf
  rw [hf] at hl
  contradiction

end Formula

end CssSelector
