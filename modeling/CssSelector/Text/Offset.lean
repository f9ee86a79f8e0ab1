/-!
Byte offsets into the UTF-8 form of a text. A slice between two offsets exists when both fall
between characters and in order (`slice?_append`).
-/

set_option autoImplicit false

namespace CssSelector.Text

def byteSize : List Char → Nat
  | [] => 0
  | c :: cs => c.utf8Size + byteSize cs

@[simp] theorem byteSize_append (xs ys : List Char) :
    byteSize (xs ++ ys) = byteSize xs + byteSize ys := by
  induction xs with
  | nil => simp [byteSize]
  | cons x xs ih => simp [byteSize, ih, Nat.add_assoc]

theorem byteSize_pos {cs : List Char} (h : cs ≠ []) : 0 < byteSize cs := by
  cases cs with
  | nil => contradiction
  | cons c cs => exact Nat.add_pos_left c.utf8Size_pos _

/-- Splits before the byte `n`, unless it is inside a character or past the end. -/
def splitAt? : Nat → List Char → Option (List Char × List Char)
  | 0, cs => some ([], cs)
  | _ + 1, [] => none
  | n + 1, c :: cs =>
    if c.utf8Size ≤ n + 1 then
      (splitAt? (n + 1 - c.utf8Size) cs).map fun (xs, ys) => (c :: xs, ys)
    else none

@[simp] theorem splitAt?_append (xs ys : List Char) :
    splitAt? (byteSize xs) (xs ++ ys) = some (xs, ys) := by
  induction xs with
  | nil => cases ys <;> rfl
  | cons x xs ih =>
    obtain ⟨n, h⟩ : ∃ n, x.utf8Size = n + 1 := ⟨_, (Nat.sub_add_cancel x.utf8Size_pos).symm⟩
    rw [byteSize, h, Nat.add_right_comm, List.cons_append, splitAt?]
    simp [h, Nat.add_right_comm, ih]

theorem splitAt?_add (xs ys : List Char) (n : Nat) :
    splitAt? (byteSize xs + n) (xs ++ ys) = (splitAt? n ys).map fun (us, vs) => (xs ++ us, vs) := by
  induction xs with
  | nil => simp [byteSize]
  | cons x xs ih =>
    obtain ⟨k, h⟩ : ∃ k, x.utf8Size = k + 1 := ⟨_, (Nat.sub_add_cancel x.utf8Size_pos).symm⟩
    have hk : k + 1 + byteSize xs + n = k + byteSize xs + n + 1 := by omega
    have hr : k + byteSize xs + n + 1 - (k + 1) = byteSize xs + n := by omega
    have hle : k + 1 ≤ k + byteSize xs + n + 1 := by omega
    rw [byteSize, h, hk, List.cons_append, splitAt?, h, if_pos hle, hr, ih, Option.map_map]
    rfl

theorem splitAt?_append_right {cs us vs : List Char} {n : Nat} (h : splitAt? n cs = some (us, vs))
    (ws : List Char) : splitAt? n (cs ++ ws) = some (us, vs ++ ws) := by
  fun_induction splitAt? n cs generalizing us vs with
  | case1 cs =>
    cases h
    cases cs <;> cases ws <;> rfl
  | case2 => contradiction
  | case3 n c cs hc ih =>
    obtain ⟨⟨us', vs'⟩, hs, hp⟩ := Option.map_eq_some_iff.1 h
    cases hp
    rw [List.cons_append, splitAt?, if_pos hc, ih hs]
    rfl
  | case4 => contradiction

theorem splitAt?_eq_some {n : Nat} {cs us vs : List Char} (h : splitAt? n cs = some (us, vs)) :
    cs = us ++ vs ∧ n = byteSize us := by
  fun_induction splitAt? n cs generalizing us vs with
  | case1 =>
    cases h
    exact ⟨rfl, rfl⟩
  | case2 => contradiction
  | case3 n c cs hc ih =>
    obtain ⟨⟨us', vs'⟩, hs, hp⟩ := Option.map_eq_some_iff.1 h
    cases hp
    obtain ⟨rfl, hn⟩ := ih hs
    exact ⟨rfl, by simp only [byteSize]; omega⟩
  | case4 => contradiction

theorem splitAt?_append_right_of_le {n : Nat} {cs : List Char} (h : n ≤ byteSize cs)
    (ws : List Char) :
    splitAt? n (cs ++ ws) = (splitAt? n cs).map fun (us, vs) => (us, vs ++ ws) := by
  fun_induction splitAt? n cs with
  | case1 cs => cases cs <;> cases ws <;> rfl
  | case2 => contradiction
  | case3 n c cs hc ih =>
    have hn : n + 1 - c.utf8Size ≤ byteSize cs := by simp only [byteSize] at h; omega
    rw [List.cons_append, splitAt?, if_pos hc, ih hn, Option.map_map, Option.map_map]
    rfl
  | case4 n c cs hc => rw [List.cons_append, splitAt?, if_neg hc]; rfl

def slice? (cs : List Char) (start stop : Nat) : Option (List Char) := do
  let (_, tail) ← splitAt? start cs
  if start ≤ stop then return (← splitAt? (stop - start) tail).1 else none

theorem slice?_append (xs ys zs : List Char) :
    slice? (xs ++ ys ++ zs) (byteSize xs) (byteSize xs + byteSize ys) = some ys := by
  simp [slice?]

theorem slice?_add (xs ys : List Char) (start stop : Nat) :
    slice? (xs ++ ys) (byteSize xs + start) (byteSize xs + stop) = slice? ys start stop := by
  unfold slice?
  rw [splitAt?_add]
  cases splitAt? start ys with
  | none => rfl
  | some => simp [Nat.add_sub_add_left]

theorem slice?_append_right {cs text : List Char} {start stop : Nat}
    (h : slice? cs start stop = some text) (ws : List Char) :
    slice? (cs ++ ws) start stop = some text := by
  unfold slice? at h ⊢
  obtain ⟨⟨us, vs⟩, hs, h⟩ := Option.bind_eq_some_iff.1 h
  rw [splitAt?_append_right hs ws]
  dsimp only [Option.bind_eq_bind, Option.bind_some] at h ⊢
  split at h
  case isTrue hle =>
    obtain ⟨⟨us', vs'⟩, hs', h⟩ := Option.bind_eq_some_iff.1 h
    rw [if_pos hle, splitAt?_append_right hs' ws]
    exact h
  case isFalse => contradiction

theorem slice?_append_right_of_le {cs : List Char} {start stop : Nat} (h : stop ≤ byteSize cs)
    (ws : List Char) : slice? (cs ++ ws) start stop = slice? cs start stop := by
  unfold slice?
  by_cases hle : start ≤ stop
  · rw [splitAt?_append_right_of_le (by omega)]
    cases hs : splitAt? start cs with
    | none => rfl
    | some p =>
      obtain ⟨rfl, rfl⟩ := splitAt?_eq_some hs
      have hstop : stop - byteSize p.1 ≤ byteSize p.2 := by rw [byteSize_append] at h; omega
      simp only [hle, if_true, Option.bind_eq_bind, Option.bind_some, Option.map_some,
        splitAt?_append_right_of_le hstop]
      cases splitAt? (stop - byteSize p.1) p.2 <;> rfl
  · simp [hle]

end CssSelector.Text
