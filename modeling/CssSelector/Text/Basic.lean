/-!
Classes of characters. Blanks are those with the Unicode property White_Space, a larger set than the
five characters that separate selector tokens. Letter case is that of the 26 ASCII letters, and names
that differ in nothing else are the same name.
-/

set_option autoImplicit false

namespace CssSelector.Text

/-- First and last code points of the ranges of the property, in order. -/
def blankRanges : List (Nat × Nat) :=
  [(0x9, 0xD), (0x20, 0x20), (0x85, 0x85), (0xA0, 0xA0), (0x1680, 0x1680), (0x2000, 0x200A),
    (0x2028, 0x2029), (0x202F, 0x202F), (0x205F, 0x205F), (0x3000, 0x3000)]

example : (blankRanges.map fun (lo, hi) => hi + 1 - lo).sum = 25 := by decide

def isBlank (c : Char) : Bool := blankRanges.any fun (lo, hi) => lo ≤ c.toNat && c.toNat ≤ hi

def trimStart (cs : List Char) : List Char := cs.dropWhile isBlank

def trimEnd (cs : List Char) : List Char := (trimStart cs.reverse).reverse

def trim (cs : List Char) : List Char := trimEnd (trimStart cs)

/-! Letter case. -/

def fold (s : String) : String := String.ofList (s.toList.map Char.toLower)

def sameLetters (s t : String) : Bool := fold s = fold t

theorem toLower_toLower (c : Char) : c.toLower.toLower = c.toLower := by
  unfold Char.toLower
  split
  case isTrue h =>
    refine dif_neg fun k => ?_
    have := UInt32.toNat_add c.val 32
    have := UInt32.le_iff_toNat_le.1 h.1
    have := UInt32.le_iff_toNat_le.1 h.2
    have := UInt32.le_iff_toNat_le.1 k.2
    simp at *
    omega
  case isFalse => rfl

@[simp] theorem fold_fold (s : String) : fold (fold s) = fold s := by
  simp only [fold, String.toList_ofList, List.map_map, Function.comp_def, toLower_toLower]

/-! The values of digits. -/

def natural? (ds : List Char) : Option Nat :=
  if ds ≠ [] ∧ ds.all Char.isDigit then some (ds.foldl (fun n d => 10 * n + (d.toNat - 48)) 0)
  else none

/-- The value of all digits, and how many of them follow the point. -/
def decimal? (cs : List Char) : Option (Nat × Nat) :=
  match cs.dropWhile Char.isDigit with
  | [] => (natural? cs).map (·, 0)
  | '.' :: places =>
    if places = [] then none
    else (natural? (cs.takeWhile Char.isDigit ++ places)).map (·, places.length)
  | _ => none

end CssSelector.Text
