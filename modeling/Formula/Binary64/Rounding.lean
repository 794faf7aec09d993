import Formula.Binary64.Grid

/-!
Rounding of exact quotients: to a whole number, and to the nearest double. Both give a value that
lies halfway between two candidates to the even one of them.
-/
namespace Formula.Binary64

/-- The quotient `num / den` rounded to the nearest whole number, a half to the even neighbour. -/
def roundHalfEven (num den : Nat) : Nat :=
  let quotient := num / den
  let twice := 2 * (num % den)
  if twice < den ∨ (twice = den ∧ quotient % 2 = 0) then quotient else quotient + 1

/-- Rank of the double nearest to `num / den`. The significand is rounded on the grid of the
binade that holds the quotient; a significand rounded up to the next power of two is the first
number of the next binade, because ranks count through the binades. -/
def nearestRank (num den : Nat) : Nat :=
  let amount := num * scale
  let binade := (amount / den).log2 - 52
  min infinityRank (binade * leadingWeight + roundHalfEven amount (den <<< binade))

/-- The double nearest to `num / den`; infinity when the quotient is too large for a finite one. -/
def nearest (num den : Nat) : Float :=
  ofRank false (nearestRank num den)

end Formula.Binary64
