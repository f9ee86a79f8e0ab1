import CssSelector.Text.Basic

/-!
Floating-point numbers of 64 bits, as far as selectors have them: the number nearest to a decimal
numeral, and equality. All arithmetic is on natural numbers.
-/

set_option autoImplicit false

namespace CssSelector

open Text

structure Binary64 where
  bits : UInt64
  deriving DecidableEq, Repr

namespace Binary64

/-- The natural number nearest to `n / d`, the even one of two. -/
def roundDiv (n d : Nat) : Nat :=
  let q := n / d
  let r := n % d
  if d < 2 * r ∨ (2 * r = d ∧ q % 2 = 1) then q + 1 else q

/-- The largest `e` with `2 ^ e ≤ n / d`. -/
def log2Div (n d : Nat) : Int :=
  let e : Int := n.log2 - d.log2
  if n <<< (-e).toNat < d <<< e.toNat then e - 1 else e

def infinity : Nat := 0x7FF0000000000000

/-- The bits of the number nearest to `n / d`. The last place counts `2 ^ e`; fifty-three places are
kept, fewer below the smallest normal number, and a carry out of them moves on to the next `e`. -/
def magnitude (n d : Nat) : Nat :=
  if n = 0 then 0
  else
    let e := max (log2Div n d - 52) (-1074)
    let m := roundDiv (n <<< (-e).toNat) (d <<< e.toNat)
    min ((e + 1074).toNat <<< 52 + m) infinity

/-- The number nearest to `digits`, the last `places` of which follow a point. -/
def ofDecimal (negative : Bool) (digits places : Nat) : Binary64 :=
  let sign := if negative then 0x8000000000000000 else 0
  ⟨.ofNat (sign + magnitude digits (Nat.pow 10 places))⟩

def ofNumeral? : List Char → Option Binary64
  | '+' :: cs => (decimal? cs).map fun (n, places) => ofDecimal false n places
  | '-' :: cs => (decimal? cs).map fun (n, places) => ofDecimal true n places
  | cs => (decimal? cs).map fun (n, places) => ofDecimal false n places

def unsignedBits (x : Binary64) : Nat := x.bits.toNat % 0x8000000000000000

def isNaN (x : Binary64) : Bool := infinity < x.unsignedBits

/-- Equality as numbers: both zeros are one number, and what is no number equals nothing. -/
def same (x y : Binary64) : Bool :=
  !x.isNaN && !y.isNaN && (x = y || (x.unsignedBits = 0 && y.unsignedBits = 0))

/-- Sixteen hexadecimal digits after the mark `0x`. -/
def hex (x : Binary64) : String :=
  let digit (i : Nat) := (x.bits.toNat >>> (4 * (15 - i)) % 16).digitChar
  String.ofList ('0' :: 'x' :: (List.range 16).map digit)

example : (ofNumeral? "2.5".toList).map hex = some "0x4004000000000000" := by cbv
example : (ofNumeral? "-.0".toList).map hex = some "0x8000000000000000" := by cbv

end Binary64
end CssSelector
