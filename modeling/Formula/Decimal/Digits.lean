/-!
Decimal digits of natural numbers.
-/
namespace Formula.Decimal

/-- Ten to the power of `n`. -/
def tenPow (n : Nat) : Nat := Nat.pow 10 n

/-- Decimal digits of `n`, filled up with zeros on the left to the given width. -/
def padded (width n : Nat) : List Char :=
  (Nat.toDigits 10 n).leftpad width '0'

end Formula.Decimal
