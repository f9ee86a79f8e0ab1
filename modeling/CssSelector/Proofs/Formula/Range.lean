import CssSelector.Formula

set_option autoImplicit false

namespace CssSelector

namespace Formula

def IsInt32 (z : Int) : Prop := -0x80000000 ≤ z ∧ z < 0x80000000

theorem isInt32_of_int32? {z w : Int} (h : int32? z = some w) : w = z ∧ IsInt32 w := by
  unfold int32? at h
  split at h
  next hz =>
    cases h
    exact ⟨rfl, hz⟩
  next => contradiction

theorem isInt32_of_integer? {cs : List Char} {z : Int} (h : integer? cs = some z) :
    IsInt32 z := by
  unfold integer? at h
  split at h <;>
  · obtain ⟨n, -, hz⟩ := Option.bind_eq_some_iff.1 h
    exact (isInt32_of_int32? hz).2

theorem isInt32_of_coefficient? {cs : List Char} {z : Int} (h : coefficient? cs = some z) :
    IsInt32 z := by
  unfold coefficient? at h
  split at h
  · cases h
    exact ⟨by decide, by decide⟩
  · cases h
    exact ⟨by decide, by decide⟩
  · cases h
    exact ⟨by decide, by decide⟩
  · exact isInt32_of_integer? h

/-- A sign may be put before a natural number: only the least of all integers has no negative, and
that is not read there. -/
theorem isInt32_of_constant? {cs : List Char} {z : Int} (h : constant? cs = some z) :
    IsInt32 z := by
  unfold constant? at h
  split at h
  · cases h
    exact ⟨by decide, by decide⟩
  · obtain ⟨n, -, hz⟩ := Option.bind_eq_some_iff.1 h
    exact (isInt32_of_int32? hz).2
  · obtain ⟨b, hb, rfl⟩ := Option.map_eq_some_iff.1 h
    obtain ⟨n, -, hn⟩ := Option.bind_eq_some_iff.1 hb
    obtain ⟨rfl, hrange⟩ := isInt32_of_int32? hn
    unfold IsInt32 at *
    omega
  · contradiction

theorem isInt32_of_read? {cs : List Char} {f : Formula} (h : read? cs = some f) :
    IsInt32 f.a ∧ IsInt32 f.b := by
  have hzero : IsInt32 0 := ⟨by decide, by decide⟩
  unfold read? at h
  dsimp only at h
  split at h
  · cases h
    exact ⟨⟨by decide, by decide⟩, by decide, by decide⟩
  split at h
  · cases h
    exact ⟨⟨by decide, by decide⟩, hzero⟩
  split at h
  · obtain ⟨b, hb, rfl⟩ := Option.map_eq_some_iff.1 h
    exact ⟨hzero, isInt32_of_integer? hb⟩
  · obtain ⟨a, ha, h⟩ := Option.bind_eq_some_iff.1 h
    obtain ⟨b, hb, h⟩ := Option.bind_eq_some_iff.1 h
    cases h
    exact ⟨isInt32_of_coefficient? ha, isInt32_of_constant? hb⟩

end Formula

end CssSelector
