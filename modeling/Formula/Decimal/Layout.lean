import Formula.Decimal.Fixed
import Formula.Decimal.Shortest

/-!
Written forms of shortest decimals. A layout says which numbers are written out by position and
which with an exponent, and whether a whole number keeps a fraction.
-/
namespace Formula.Decimal

/-- Choices of a written form. The leading exponent of a number is the power of ten of its first
digit. -/
structure Layout where
  /-- Whether a whole number that is written out ends in a point and a zero. -/
  keepsFraction : Bool
  /-- Whether a number with this leading exponent is written out by position. -/
  isPositional : Int → Bool

/-- Digits with the point set by position. -/
def positional (keepsFraction : Bool) (digits : List Char) (exponent : Int) : List Char :=
  if 0 ≤ exponent then
    digits ++ List.replicate exponent.toNat '0' ++ if keepsFraction then ['.', '0'] else []
  else
    let places := (-exponent).toNat
    if places < digits.length then
      digits.take (digits.length - places) ++ '.' :: digits.drop (digits.length - places)
    else
      '0' :: '.' :: digits.leftpad places '0'

/-- One digit before the point and the leading exponent behind the letter `e`. -/
def withExponent (digits : List Char) (leading : Int) : List Char :=
  let fraction := match digits.tail with
    | [] => []
    | rest => '.' :: rest
  let power := Nat.toDigits 10 leading.natAbs
  digits.take 1 ++ fraction ++ 'e' :: if leading < 0 then '-' :: power else power

/-- A decimal in the given layout. -/
def Scientific.text (layout : Layout) (d : Scientific) : List Char :=
  let digits := Nat.toDigits 10 d.digits
  let leading := d.exponent + (digits.length : Int) - 1
  if layout.isPositional leading then positional layout.keepsFraction digits d.exponent
  else withExponent digits leading

/-- The shortest decimal that reads back as `x`, in the given layout. -/
def Layout.write (layout : Layout) (x : Float) : List Char :=
  signed (fun n => (shortest n).text layout) x

end Formula.Decimal
