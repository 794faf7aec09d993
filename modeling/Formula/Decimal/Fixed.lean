import Formula.Binary64.Rounding
import Formula.Decimal.Digits

/-!
Numbers written in decimal with a fixed count of places. The digits are those of the exact value
of the double, rounded once; a half goes to the even neighbour.
-/
namespace Formula.Decimal

open Formula.Binary64

/-- A number from the text of its finite magnitudes: the sign in front, and words for infinity
and for no number, which has no sign. -/
def signed (magnitude : Nat → List Char) (x : Float) : List Char :=
  if infinityRank < rank x then ['N', 'a', 'N']
  else
    let body := if rank x = infinityRank then ['i', 'n', 'f'] else magnitude (rank x)
    if signBit x then '-' :: body else body

/-- The double of rank `n` in multiples of `10 ^ (-places)`, rounded once. -/
def scaled (places n : Nat) : Nat :=
  roundHalfEven (units n * tenPow places) scale

/-- The count `k` of multiples of `10 ^ (-places)` as a whole part, a point and `places` digits. -/
def withPoint (places k : Nat) : List Char :=
  Nat.toDigits 10 (k / tenPow places) ++ '.' :: padded places (k % tenPow places)

/-- The number `x` with the given count of decimal places. All digits of the whole part are
written, and a negative number that rounds to zero keeps its sign. -/
def fixed (places : Nat) (x : Float) : List Char :=
  signed (fun n => withPoint places (scaled places n)) x

end Formula.Decimal
