/-!
The doubles as a grid of exact values. Leaving the sign aside, the bits of a double number the
non-negative doubles in ascending order; every finite one of them is a whole number of units of
two to the power of minus 1074, so exact reading and writing of numbers needs natural numbers only.
-/
namespace Formula.Binary64

/-- Units of the grid in the number one. -/
def scale : Nat := 1 <<< 1074

/-- Weight of the sign bit. -/
def signWeight : Nat := 1 <<< 63

/-- Weight of the leading bit of a normal significand, and count of the doubles in a binade. -/
def leadingWeight : Nat := 1 <<< 52

/-- Whether the sign bit is set. Zeros have a sign bit too. -/
def signBit (x : Float) : Bool :=
  decide (signWeight ≤ x.toBits.toNat)

/-- Place of the magnitude of `x` in the ascending list of the non-negative doubles, counted from
zero on. -/
def rank (x : Float) : Nat :=
  x.toBits.toNat % signWeight

/-- Place of infinity: smaller ranks are finite numbers, larger ones are no numbers. -/
def infinityRank : Nat := 2047 * leadingWeight

/-- Significand of the double of rank `n`: its lowest 52 bits, and the leading bit unless the
number is subnormal. -/
def significand (n : Nat) : Nat :=
  if n < leadingWeight then n else leadingWeight + n % leadingWeight

/-- Binary exponent of the double of rank `n`, counted from that of the subnormal numbers. -/
def exponent (n : Nat) : Nat :=
  n / leadingWeight - 1

/-- Exact value of the double of rank `n`, in units of the grid. Infinity has the value at which
the next binade would start. -/
def units (n : Nat) : Nat :=
  significand n <<< exponent n

/-- The double with the given sign bit whose magnitude has rank `n`. -/
def ofRank (negative : Bool) (n : Nat) : Float :=
  Float.ofBits (UInt64.ofNat (if negative then signWeight + n else n))

/-- The value that stands for a missing number. -/
def nan : Float := Float.ofBits 0x7ff8000000000000

end Formula.Binary64
