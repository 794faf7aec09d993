import Formula.Binary64.Grid
import Formula.Decimal.Digits

/-!
The shortest decimal of a double: among the decimals that read back as the double, those on the
coarsest decimal grid, and of these the nearest to its exact value. Everything is decided in whole
numbers, in half units of the grid of doubles.
-/
namespace Formula.Decimal

open Formula.Binary64

/-- The decimal `digits * 10 ^ exponent`. -/
structure Scientific where
  digits : Nat
  exponent : Int
deriving DecidableEq, Repr

/-- The grid of the multiples of `10 ^ exponent` as a fraction: a value of `h` half units lies
`h * up / down` steps above zero. -/
structure Step where
  up : Nat
  down : Nat

/-- The decimal grid with the given exponent. -/
def Step.ofExponent (exponent : Int) : Step :=
  ⟨tenPow (-exponent).toNat, 2 * scale * tenPow exponent.toNat⟩

/-- Whether `c` steps read back as the double of rank `n`: they lie between the midpoints to its
neighbours, or on one of them when the significand is even. -/
def Step.readsBack (s : Step) (n c : Nat) : Bool :=
  let low := (units (n - 1) + units n) * s.up
  let high := (units n + units (n + 1)) * s.up
  let point := c * s.down
  if n % 2 = 0 then low ≤ point && point ≤ high else low < point && point < high

/-- The count of steps nearest to the double of rank `n` among those that read back as it, if
there is one; of two equally near ones the larger. Only the two neighbours of the value matter. -/
def Step.candidate? (s : Step) (n : Nat) : Option Nat :=
  let value := 2 * units n * s.up
  let below := value / s.down
  let belowIsNearer := decide (2 * (value % s.down) < s.down)
  match s.readsBack n below, s.readsBack n (below + 1) with
  | true, true => some (if belowIsNearer then below else below + 1)
  | true, false => some below
  | false, true => some (below + 1)
  | false, false => none

/-- Exponents of the decimal grids that are tried, the coarsest first. No finite double reaches
`10 ^ 309`, and a grid with steps below one unit always has a hit. -/
def exponents : List Int :=
  (List.range 634).map fun (i : Nat) => (309 : Int) - i

/-- Shortest decimal of the finite double of rank `n`. -/
def shortest (n : Nat) : Scientific :=
  if n = 0 then ⟨0, 0⟩
  else
    (exponents.findSome? fun e =>
      ((Step.ofExponent e).candidate? n).map fun c => Scientific.mk c e).getD ⟨0, 0⟩

end Formula.Decimal
