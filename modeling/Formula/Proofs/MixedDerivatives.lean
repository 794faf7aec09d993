import Formula.Proofs.RealDerivative

/-! Derivatives in two directions, one after the other. Nothing is simplified, so the two orders
need not give the same expression, but they give the same value at every point. This is an identity
of commutative rings: division needs no more than some function to multiply with, so it holds at
singular points too, and of roots, sines and cosines nothing is known at all. -/
namespace Formula

universe u

/-- A reading of expressions in a commutative ring, a field for instance. A quotient is the product
with `inv` of the divisor. Of the numbers that the rules of differentiation bring in, zero and two
have their meaning, and the others have any. -/
structure RingReading (R : Type u) [CommRing R] where
  number : Float → R
  inv : R → R
  sqrt : R → R
  sin : R → R
  cos : R → R
  number_zero : number 0 = 0
  number_two : number 2 = 1 + 1

namespace RingReading

variable {R : Type u} [CommRing R] (I : RingReading R)

/-- The operations of the ring. -/
def arithmetic : Arithmetic R where
  number := I.number
  add x y := x + y
  sub x y := x - y
  mul x y := x * y
  div x y := x * I.inv y
  neg x := -x
  sqrt := I.sqrt
  sin := I.sin
  cos := I.cos

/-- Value of an expression in the ring. -/
def value (v : Valuation R) (e : Expr) : R := e.evalWith I.arithmetic v

/-- Value of the mixed derivative of a binary operator, told by the values `x` and `y` of the
operands, those of their derivatives in the two directions, `x₁` and `x₂` for `x`, and those of
their own mixed derivatives, `x₁₂`. -/
def mixedBinary (x y x₁ y₁ x₂ y₂ x₁₂ y₁₂ : R) : BinaryOp → R
  | .add => x₁₂ + y₁₂
  | .sub => x₁₂ - y₁₂
  | .mul => x * y₁₂ + (x₁ * y₂ + x₂ * y₁) + x₁₂ * y
  | .div =>
    (y * y * (x₁₂ * y - (x₁ * y₂ + x₂ * y₁) - x * y₁₂) + (1 + 1) * x * y * (y₁ * y₂)) *
      I.inv (y * y * (y * y))

/-- Value of the mixed derivative of a unary operator. -/
def mixedUnary (x x₁ x₂ x₁₂ : R) : UnaryOp → R
  | .neg => -x₁₂
  | .sqrt =>
    I.number 0.5 * I.inv (I.sqrt x) *
      (x₁₂ - I.number 0.5 * I.inv (I.sqrt x * I.sqrt x) * (x₁ * x₂))
  | .square => (1 + 1) * (x * x₁₂ + x₁ * x₂)
  | .sin => I.cos x * x₁₂ - I.sin x * (x₁ * x₂)
  | .cos => -(I.sin x * x₁₂ + I.cos x * (x₁ * x₂))

/-- The mixed derivative does not tell the two directions apart. -/
theorem mixedBinary_comm (x y x₁ y₁ x₂ y₂ x₁₂ y₁₂ : R) (op : BinaryOp) :
    I.mixedBinary x y x₁ y₁ x₂ y₂ x₁₂ y₁₂ op = I.mixedBinary x y x₂ y₂ x₁ y₁ x₁₂ y₁₂ op := by
  cases op <;> simp only [mixedBinary] <;> ring

theorem mixedUnary_comm (x x₁ x₂ x₁₂ : R) (op : UnaryOp) :
    I.mixedUnary x x₁ x₂ x₁₂ op = I.mixedUnary x x₂ x₁ x₁₂ op := by
  cases op <;> simp only [mixedUnary] <;> ring

variable {q : Handle} {u w du dw uq wq duq dwq : Expr}

/-- What a rule answers can be differentiated again, and the value of the second derivative is the
mixed one. No inverse is ever cancelled, so nothing is asked of divisors. -/
theorem exists_derivative_binary_rule (op : BinaryOp) (hu : u.derivative q = .ok uq)
    (hw : w.derivative q = .ok wq) (hdu : du.derivative q = .ok duq)
    (hdw : dw.derivative q = .ok dwq) :
    ∃ d, (op.rule u w du dw).derivative q = .ok d ∧
      ∀ v, I.value v d = I.mixedBinary (I.value v u) (I.value v w) (I.value v du) (I.value v dw)
        (I.value v uq) (I.value v wq) (I.value v duq) (I.value v dwq) op := by
  cases op with
  | add => exact ⟨_, Expr.derivative_binary_eq_ok .add hdu hdw, fun v => rfl⟩
  | sub => exact ⟨_, Expr.derivative_binary_eq_ok .sub hdu hdw, fun v => rfl⟩
  | mul =>
      have hLeft := Expr.derivative_binary_eq_ok .mul hu hdw
      have hRight := Expr.derivative_binary_eq_ok .mul hw hdu
      refine ⟨_, Expr.derivative_binary_eq_ok .add hLeft hRight, fun v => ?_⟩
      show I.value v u * I.value v dwq + I.value v dw * I.value v uq +
        (I.value v w * I.value v duq + I.value v du * I.value v wq) = _
      simp only [mixedBinary]
      ring
  | div =>
      have hLeft := Expr.derivative_binary_eq_ok .mul hdu hw
      have hRight := Expr.derivative_binary_eq_ok .mul hu hdw
      have hNumerator := Expr.derivative_binary_eq_ok .sub hLeft hRight
      have hSquare := Expr.derivative_unary_eq_ok .square hw
      refine ⟨_, Expr.derivative_binary_eq_ok .div hNumerator hSquare, fun v => ?_⟩
      show ((I.value v du * I.value v wq + I.value v w * I.value v duq -
          (I.value v u * I.value v dwq + I.value v dw * I.value v uq)) *
          (I.value v w * I.value v w) -
        (I.value v du * I.value v w - I.value v u * I.value v dw) *
          (I.number 2 * I.value v w * I.value v wq)) *
        I.inv (I.value v w * I.value v w * (I.value v w * I.value v w)) = _
      rw [number_two, mixedBinary]
      ring

/-- The same for operators with one operand. Roots, sines and cosines are told apart by their
operands alone. -/
theorem exists_derivative_unary_rule (op : UnaryOp) (hu : u.derivative q = .ok uq)
    (hdu : du.derivative q = .ok duq) :
    ∃ d, (op.rule u du).derivative q = .ok d ∧
      ∀ v, I.value v d = I.mixedUnary (I.value v u) (I.value v du) (I.value v uq)
        (I.value v duq) op := by
  cases op with
  | neg => exact ⟨_, Expr.derivative_unary_eq_ok .neg hdu, fun v => rfl⟩
  | sqrt =>
      have hRoot := Expr.derivative_unary_eq_ok .sqrt hu
      have hHalf : (Expr.number 0.5).derivative q = .ok (.number 0) := rfl
      have hFactor := Expr.derivative_binary_eq_ok .div hHalf hRoot
      refine ⟨_, Expr.derivative_binary_eq_ok .mul hFactor hdu, fun v => ?_⟩
      show I.number 0.5 * I.inv (I.sqrt (I.value v u)) * I.value v duq + I.value v du *
        ((I.number 0 * I.sqrt (I.value v u) - I.number 0.5 *
          (I.number 0.5 * I.inv (I.sqrt (I.value v u)) * I.value v uq)) *
          I.inv (I.sqrt (I.value v u) * I.sqrt (I.value v u))) = _
      rw [number_zero, mixedUnary]
      ring
  | square =>
      have hTwo : (Expr.number 2).derivative q = .ok (.number 0) := rfl
      have hFactor := Expr.derivative_binary_eq_ok .mul hTwo hu
      refine ⟨_, Expr.derivative_binary_eq_ok .mul hFactor hdu, fun v => ?_⟩
      show I.number 2 * I.value v u * I.value v duq + I.value v du *
        (I.number 2 * I.value v uq + I.value v u * I.number 0) = _
      rw [number_zero, number_two, mixedUnary]
      ring
  | sin =>
      have hFactor := Expr.derivative_unary_eq_ok .cos hu
      refine ⟨_, Expr.derivative_binary_eq_ok .mul hFactor hdu, fun v => ?_⟩
      show I.cos (I.value v u) * I.value v duq +
        I.value v du * -(I.sin (I.value v u) * I.value v uq) = _
      rw [mixedUnary]
      ring
  | cos =>
      have hFactor := Expr.derivative_unary_eq_ok .sin hu
      have hProduct := Expr.derivative_binary_eq_ok .mul hFactor hdu
      refine ⟨_, Expr.derivative_unary_eq_ok .neg hProduct, fun v => ?_⟩
      show -(I.sin (I.value v u) * I.value v duq +
        I.value v du * (I.cos (I.value v u) * I.value v uq)) = _
      rw [mixedUnary]
      ring

/-- Both orders of two derivatives exist. The induction is on the expression: the values of the two
mixed derivatives are the same polynomial with the directions exchanged. -/
theorem exists_mixed_derivatives {e : Expr} (hFree : e.Unresolved) (p q : Handle) :
    ∃ dp dq dpq dqp, e.derivative p = .ok dp ∧ e.derivative q = .ok dq ∧
      dp.derivative q = .ok dpq ∧ dq.derivative p = .ok dqp ∧
      ∀ v, I.value v dpq = I.value v dqp := by
  induction e with
  | param h => exact ⟨_, _, _, _, rfl, rfl, rfl, rfl, fun v => rfl⟩
  | resolved r => exact hFree.elim
  | number x => exact ⟨_, _, _, _, rfl, rfl, rfl, rfl, fun v => rfl⟩
  | binary op left right hLeft hRight =>
      obtain ⟨lp, lq, lpq, lqp, hlp, hlq, hlpq, hlqp, hlComm⟩ := hLeft hFree.1
      obtain ⟨rp, rq, rpq, rqp, hrp, hrq, hrpq, hrqp, hrComm⟩ := hRight hFree.2
      obtain ⟨dpq, hdpq, hValue⟩ := I.exists_derivative_binary_rule op hlq hrq hlpq hrpq
      obtain ⟨dqp, hdqp, hOther⟩ := I.exists_derivative_binary_rule op hlp hrp hlqp hrqp
      refine ⟨_, _, dpq, dqp, Expr.derivative_binary_eq_ok op hlp hrp,
        Expr.derivative_binary_eq_ok op hlq hrq, hdpq, hdqp, fun v => ?_⟩
      rw [hValue, hOther, hlComm, hrComm]
      exact I.mixedBinary_comm _ _ _ _ _ _ _ _ op
  | unary op operand hOperand =>
      obtain ⟨ap, aq, apq, aqp, hap, haq, hapq, haqp, hComm⟩ := hOperand hFree
      obtain ⟨dpq, hdpq, hValue⟩ := I.exists_derivative_unary_rule op haq hapq
      obtain ⟨dqp, hdqp, hOther⟩ := I.exists_derivative_unary_rule op hap haqp
      refine ⟨_, _, dpq, dqp, Expr.derivative_unary_eq_ok op hap,
        Expr.derivative_unary_eq_ok op haq, hdpq, hdqp, fun v => ?_⟩
      rw [hValue, hOther, hComm]
      exact I.mixedUnary_comm _ _ _ _ op

end RingReading

/-- Mixed derivatives commute exactly. An expression without resolved parameters can be
differentiated in two directions in either order, and the two results have the same value in every
reading of a commutative ring and under every valuation, whether or not a divisor is zero there. -/
theorem evalWith_derivative_comm {R : Type u} [CommRing R] (I : RingReading R) {e : Expr}
    (hFree : e.Unresolved) (p q : Handle) :
    ∃ dpq dqp, (e.derivative p >>= fun d => d.derivative q) = .ok dpq ∧
      (e.derivative q >>= fun d => d.derivative p) = .ok dqp ∧
      ∀ v, dpq.evalWith I.arithmetic v = dqp.evalWith I.arithmetic v := by
  obtain ⟨dp, dq, dpq, dqp, hp, hq, hpq, hqp, hComm⟩ := I.exists_mixed_derivatives hFree p q
  refine ⟨dpq, dqp, ?_, ?_, hComm⟩
  · rw [hp]
    exact hpq
  · rw [hq]
    exact hqp

/-- The real numbers as a ring in which a quotient by zero is zero. -/
noncomputable def RingReading.real : RingReading ℝ where
  number := Binary64.toReal
  inv x := x⁻¹
  sqrt := Real.sqrt
  sin := Real.sin
  cos := Real.cos
  number_zero := Binary64.toReal_zero
  number_two := Binary64.toReal_two.trans one_add_one_eq_two.symm

/-- A root divided by a parameter, where both the parameter and what the root is taken of are zero:
no derivative of calculus exists there, and the values agree. -/
theorem derivative_comm_of_root_quotient :
    let e : Expr := .binary .div (.unary .sqrt (.param ⟨1⟩)) (.param ⟨2⟩)
    e.Unresolved ∧ ∃ dpq dqp, (e.derivative ⟨1⟩ >>= fun d => d.derivative ⟨2⟩) = .ok dpq ∧
      (e.derivative ⟨2⟩ >>= fun d => d.derivative ⟨1⟩) = .ok dqp ∧
      dpq.evalWith RingReading.real.arithmetic ⟨fun _ => 0, fun _ => 0⟩ =
        dqp.evalWith RingReading.real.arithmetic ⟨fun _ => 0, fun _ => 0⟩ := by
  intro e
  have hFree : e.Unresolved := ⟨trivial, trivial⟩
  obtain ⟨dpq, dqp, hpq, hqp, hComm⟩ := evalWith_derivative_comm RingReading.real hFree ⟨1⟩ ⟨2⟩
  exact ⟨hFree, dpq, dqp, hpq, hqp, hComm _⟩

end Formula
