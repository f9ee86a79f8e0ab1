import CssSelector.NameMap
import Mathlib

set_option autoImplicit false

namespace CssSelector

namespace Text

def bytes (s : String) : List UInt8 := s.toUTF8.data.toList

theorem bytes_eq (s : String) : bytes s = s.toList.flatMap String.utf8EncodeChar := by
  rw [bytes, String.toUTF8, ← String.utf8Encode_toList]
  simp [List.utf8Encode]

/-- The forms of two characters differ in a byte, and the first such byte is in the order of the
characters. -/
theorem utf8EncodeChar_append_lt {c d : Char} (h : c < d) (xs ys : List UInt8) :
    String.utf8EncodeChar c ++ xs < String.utf8EncodeChar d ++ ys := by
  have hlt : c.val.toNat < d.val.toNat := h
  have hmax : d.val.toNat < 0x110000 := by
    have := d.valid
    simp only [UInt32.isValidChar, Nat.isValidChar] at this
    omega
  unfold String.utf8EncodeChar
  dsimp only
  split_ifs
  all_goals
    simp only [List.cons_append, List.nil_append, List.cons_lt_cons_iff, UInt8.lt_iff_toNat_lt,
      ← UInt8.toNat_inj, UInt8.toNat_ofNat']
    -- no byte is cut short, so the bytes are digits in base 64
    simp (disch := omega) only [Nat.mod_eq_of_lt]
    omega

theorem bytes_lt {s t : String} (h : s < t) : bytes s < bytes t := by
  rw [bytes_eq, bytes_eq]
  replace h : s.toList < t.toList := h
  generalize s.toList = cs at h
  generalize t.toList = ds at h
  induction h with
  | @nil d ds =>
    rw [List.flatMap_nil, List.flatMap_cons]
    have hne : String.utf8EncodeChar d ++ ds.flatMap String.utf8EncodeChar ≠ [] := by simp
    obtain ⟨b, bs, hb⟩ := List.exists_cons_of_ne_nil hne
    rw [hb]
    exact List.nil_lt_cons b bs
  | cons _ ih =>
    rw [List.flatMap_cons, List.flatMap_cons]
    exact List.append_left_lt ih
  | rel h => exact utf8EncodeChar_append_lt h _ _

end Text

namespace NameMap
variable {α β : Type} {m : NameMap α} {n : String}

theorem lookup_cons (n : String) (e : String × α) (es : List (String × α)) :
    (e :: es).lookup n = if n = e.1 then some e.2 else es.lookup n := by
  rw [List.lookup_cons]
  by_cases h : n = e.1
  · rw [if_pos h, beq_iff_eq.2 h]
  · rw [if_neg h, beq_eq_false_iff_ne.2 h]

theorem lookup_place (key n : String) (value : α) (es : List (String × α)) :
    (place key value es).lookup n = if n = key then some value else es.lookup n := by
  induction es with
  | nil => rw [place, lookup_cons]
  | cons e es ih =>
    unfold place
    split
    case isTrue => rw [lookup_cons]
    split
    case isFalse.isTrue eq =>
      rw [lookup_cons, lookup_cons, ← eq]
      split <;> rfl
    case isFalse.isFalse _ ne =>
      rw [lookup_cons, lookup_cons, ih]
      by_cases h : n = e.1
      · simp only [h, if_true, if_neg (Ne.symm ne)]
      · simp only [if_neg h]

theorem find?_insert (m : NameMap α) (key n : String) (value : α) :
    (m.insert key value).find? n = if n = key then some value else m.find? n :=
  lookup_place key n value m.entries

theorem find?_map (f : α → β) (m : NameMap α) (n : String) :
    (m.map f).find? n = (m.find? n).map f := by
  simp only [find?, map]
  induction m.entries with
  | nil => rfl
  | cons e es ih =>
    rw [List.map_cons, lookup_cons, lookup_cons, ih]
    split <;> rfl

theorem nodup_keys (m : NameMap α) : m.keys.Nodup :=
  (List.pairwise_map.2 m.sorted).imp fun h => String.ne_of_lt h

theorem lookup_eq_some_iff {es : List (String × α)} (h : (es.map (·.1)).Nodup) {v : α} :
    es.lookup n = some v ↔ (n, v) ∈ es := by
  induction es with
  | nil => simp
  | cons e es ih =>
    obtain ⟨he, hes⟩ := List.nodup_cons.1 h
    rw [lookup_cons, List.mem_cons]
    split
    case isTrue hn =>
      subst hn
      have hout : (e.1, v) ∉ es := fun hmem => he (List.mem_map.2 ⟨_, hmem, rfl⟩)
      simp [hout, Prod.ext_iff, eq_comm]
    case isFalse hn => simp [hn, ih hes, Prod.ext_iff]

theorem lookup_eq_none {es : List (String × α)} (h : n ∉ es.map (·.1)) : es.lookup n = none :=
  List.lookup_eq_none_iff.2 fun e he =>
    bne_iff_ne.2 fun hn => h (List.mem_map.2 ⟨e, he, hn.symm⟩)

theorem lookup_perm {es fs : List (String × α)} (h : es.Perm fs) (hes : (es.map (·.1)).Nodup) :
    es.lookup n = fs.lookup n := by
  have hfs : (fs.map (·.1)).Nodup := (h.map (·.1)).nodup_iff.1 hes
  ext v
  rw [lookup_eq_some_iff hes, lookup_eq_some_iff hfs, h.mem_iff]

theorem find?_eq_some_iff {v : α} : m.find? n = some v ↔ (n, v) ∈ m.entries :=
  lookup_eq_some_iff m.nodup_keys

theorem mem_keys_iff : n ∈ m.keys ↔ ∃ v, m.find? n = some v := by
  simp [keys, find?_eq_some_iff]

theorem contains_iff : m.contains n = true ↔ n ∈ m.keys :=
  Option.isSome_iff_exists.trans mem_keys_iff.symm

@[ext]
theorem ext {m m' : NameMap α} (h : ∀ n v, m.find? n = some v ↔ m'.find? n = some v) : m = m' := by
  obtain ⟨es, hes⟩ := m
  obtain ⟨fs, hfs⟩ := m'
  simp only [find?_eq_some_iff] at h
  congr 1
  have nodup {es : List (String × α)} (hs : es.Pairwise fun x y => x.1 < y.1) : es.Nodup :=
    hs.imp fun hlt heq => String.ne_of_lt hlt (congrArg Prod.fst heq)
  have hperm : es.Perm fs :=
    (List.perm_ext_iff_of_nodup (nodup hes) (nodup hfs)).2 fun e => h e.1 e.2
  exact hperm.eq_of_pairwise
    (fun x y _ _ hlt hgt => absurd (String.lt_trans hlt hgt) (String.lt_irrefl x.1)) hes hfs

end NameMap
end CssSelector
