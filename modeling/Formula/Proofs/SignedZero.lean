/-!
Zeros among the doubles. Sums and differences of zeros are zeros, and so are products with a zero
for a factor and quotients of a zero, up to the sign, as long as they are numbers. Infinities make
them no numbers, but nothing makes them numbers other than zero. Arithmetic on the parts of a double
finds this out before it rounds.
-/
namespace Formula.Binary64

open Float.Model (UnpackedFloat)
open Float.Model.Format (binary64)
open Float.Model.UnpackedFloat

/-- A zero of either sign, or no number. -/
def IsZeroOrNaN (x : Float) : Prop := x = 0 ∨ x = -0 ∨ x.isNaN = true

/-- The same of a double that is taken apart. -/
inductive Vanishes : UnpackedFloat → Prop
  | zero (s : Sign) : Vanishes (.zero s)
  | notANumber : Vanishes .notANumber

/-- Taken apart, such a double is a zero or no number, and nothing finite. -/
theorem IsZeroOrNaN.vanishes {x : Float} (hZero : IsZeroOrNaN x) :
    Vanishes x.toModel.unpack := by
  rcases hZero with hZero | hZero | hNaN
  · subst x
    exact .zero .positive
  · subst x
    exact .zero .negative
  · have hUnpacked : x.toModel.unpack.isNaN = true := hNaN
    cases hParts : x.toModel.unpack with
    | zero s => exact .zero s
    | notANumber => exact .notANumber
    | infinity s =>
        rw [hParts] at hUnpacked
        cases hUnpacked
    | finite s m e hm =>
        rw [hParts] at hUnpacked
        cases hUnpacked

namespace Vanishes

variable {x y : UnpackedFloat}

/-- Put together again, the zeros keep their signs. -/
theorem isZeroOrNaN_pack (hZero : Vanishes x) : IsZeroOrNaN (.ofModel (Float.Model.pack x)) := by
  cases hZero with
  | zero s =>
      cases s with
      | positive => exact .inl rfl
      | negative => exact .inr (.inl rfl)
  | notANumber => exact .inr (.inr rfl)

/-- The sign of a sum of zeros depends on both signs, but it is a zero. -/
theorem add (hLeft : Vanishes x) (hRight : Vanishes y) : Vanishes (x.add binary64 y) := by
  cases hLeft with
  | notANumber => exact .notANumber
  | zero s =>
      cases hRight with
      | notANumber => exact .notANumber
      | zero t => cases s <;> cases t <;> exact .zero _

theorem sub (hLeft : Vanishes x) (hRight : Vanishes y) : Vanishes (x.sub binary64 y) := by
  cases hLeft with
  | notANumber => exact .notANumber
  | zero s =>
      cases hRight with
      | notANumber => exact .notANumber
      | zero t => cases s <;> cases t <;> exact .zero _

theorem neg (hZero : Vanishes x) : Vanishes x.neg := by
  cases hZero with
  | notANumber => exact .notANumber
  | zero s => exact .zero _

/-- A zero times an infinity is no number. -/
theorem mul_left (y : UnpackedFloat) (hZero : Vanishes x) : Vanishes (x.mul binary64 y) := by
  cases hZero with
  | notANumber => exact .notANumber
  | zero s =>
      cases y with
      | notANumber => exact .notANumber
      | infinity t => exact .notANumber
      | zero t => exact .zero _
      | finite t m e hm => exact .zero _

theorem mul_right (x : UnpackedFloat) (hZero : Vanishes y) : Vanishes (x.mul binary64 y) := by
  cases hZero with
  | notANumber => cases x <;> exact .notANumber
  | zero s =>
      cases x with
      | notANumber => exact .notANumber
      | infinity t => exact .notANumber
      | zero t => exact .zero _
      | finite t m e hm => exact .zero _

/-- A zero by a zero is no number. -/
theorem div (y : UnpackedFloat) (hZero : Vanishes x) : Vanishes (x.div binary64 y) := by
  cases hZero with
  | notANumber => exact .notANumber
  | zero s =>
      cases y with
      | notANumber => exact .notANumber
      | zero t => exact .notANumber
      | infinity t => exact .zero _
      | finite t m e hm => exact .zero _

end Vanishes

namespace IsZeroOrNaN

variable {x y : Float}

/-- Doubles are added by their parts, so zeros stay zeros. The other operations are told alike. -/
theorem add (hLeft : IsZeroOrNaN x) (hRight : IsZeroOrNaN y) : IsZeroOrNaN (x.add y) :=
  (hLeft.vanishes.add hRight.vanishes).isZeroOrNaN_pack

theorem sub (hLeft : IsZeroOrNaN x) (hRight : IsZeroOrNaN y) : IsZeroOrNaN (x.sub y) :=
  (hLeft.vanishes.sub hRight.vanishes).isZeroOrNaN_pack

theorem neg (hZero : IsZeroOrNaN x) : IsZeroOrNaN x.neg :=
  hZero.vanishes.neg.isZeroOrNaN_pack

/-- Whatever the other factor is, the product is a zero or no number. -/
theorem mul_left (y : Float) (hZero : IsZeroOrNaN x) : IsZeroOrNaN (x.mul y) :=
  (hZero.vanishes.mul_left y.toModel.unpack).isZeroOrNaN_pack

theorem mul_right (x : Float) (hZero : IsZeroOrNaN y) : IsZeroOrNaN (x.mul y) :=
  (hZero.vanishes.mul_right x.toModel.unpack).isZeroOrNaN_pack

/-- A quotient of a zero by any double, by zero and infinity too. -/
theorem div (y : Float) (hZero : IsZeroOrNaN x) : IsZeroOrNaN (x.div y) :=
  (hZero.vanishes.div y.toModel.unpack).isZeroOrNaN_pack

/-- Zeros of both signs are equal to zero. -/
theorem beq_zero (hZero : IsZeroOrNaN x) (hNumber : x.isNaN = false) : (x == 0) = true := by
  rcases hZero with hZero | hZero | hNaN
  · subst x
    rfl
  · subst x
    rfl
  · rw [hNumber] at hNaN
    cases hNaN

end IsZeroOrNaN

end Formula.Binary64
