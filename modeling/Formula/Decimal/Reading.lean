import Formula.Binary64.Rounding
import Formula.Decimal.Digits

/-!
Values of runs of digits and points.
-/
namespace Formula.Decimal

open Formula.Binary64

/-- Digits in front of the first point. -/
def wholeDigits (run : List Char) : List Char :=
  run.takeWhile (· != '.')

/-- Digits between the first and the second point. -/
def fractionDigits (run : List Char) : List Char :=
  (run.dropWhile (· != '.')).tail.takeWhile (· != '.')

/-- The double nearest to the number that a run of digits and points starts with. A second point
and all that follows it are ignored, and a run without digits has the value zero. -/
def value (run : List Char) : Float :=
  let fraction := fractionDigits run
  nearest (Nat.ofDigitChars 10 (wholeDigits run ++ fraction) 0) (tenPow fraction.length)

end Formula.Decimal
