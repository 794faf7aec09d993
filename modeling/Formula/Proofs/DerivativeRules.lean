import Formula.Expr.Derivative
import Formula.Proofs.Occurrence

/-! The rules of differentiation as one expression for each operator, put together from the
operands and their derivatives. Whatever is said of derivatives is said of these rules first. -/
namespace Formula

/-- The derivative of a binary operator whose operands have the derivatives `du` and `dw`. -/
def BinaryOp.rule (u w du dw : Expr) : BinaryOp → Expr
  | .add => du + dw
  | .sub => du - dw
  | .mul => u * dw + w * du
  | .div => (du * w - u * dw) / w.square

/-- The derivative of a unary operator whose operand has the derivative `du`. -/
def UnaryOp.rule (u du : Expr) : UnaryOp → Expr
  | .neg => -du
  | .sqrt => .number 0.5 / u.sqrt * du
  | .square => .number 2 * u * du
  | .sin => u.cos * du
  | .cos => -(u.sin * du)

namespace Expr

variable {p : Handle} {u w d : Expr}

/-- A binary operator is differentiated by its rule when both of its operands are. -/
theorem derivative_binary_eq_ok_iff (op : BinaryOp) :
    (Expr.binary op u w).derivative p = .ok d ↔
      ∃ du dw, u.derivative p = .ok du ∧ w.derivative p = .ok dw ∧ op.rule u w du dw = d := by
  rw [derivative]
  cases hu : u.derivative p with
  | error error => simp [bind, Except.bind]
  | ok du =>
      cases hw : w.derivative p with
      | error error => simp [bind, Except.bind]
      | ok dw => cases op <;> simp [bind, Except.bind, pure, Except.pure, BinaryOp.rule]

theorem derivative_unary_eq_ok_iff (op : UnaryOp) :
    (Expr.unary op u).derivative p = .ok d ↔
      ∃ du, u.derivative p = .ok du ∧ op.rule u du = d := by
  rw [derivative]
  cases hu : u.derivative p with
  | error error => simp [bind, Except.bind]
  | ok du => cases op <;> simp [bind, Except.bind, pure, Except.pure, UnaryOp.rule]

theorem derivative_binary_eq_ok {du dw : Expr} (op : BinaryOp) (hLeft : u.derivative p = .ok du)
    (hRight : w.derivative p = .ok dw) :
    (Expr.binary op u w).derivative p = .ok (op.rule u w du dw) :=
  (derivative_binary_eq_ok_iff op).mpr ⟨du, dw, hLeft, hRight, rfl⟩

theorem derivative_unary_eq_ok {du : Expr} (op : UnaryOp) (hOperand : u.derivative p = .ok du) :
    (Expr.unary op u).derivative p = .ok (op.rule u du) :=
  (derivative_unary_eq_ok_iff op).mpr ⟨du, hOperand, rfl⟩

/-- Every expression without resolved parameters has a derivative. -/
theorem exists_derivative {e : Expr} (hFree : e.Unresolved) (p : Handle) :
    ∃ d, e.derivative p = .ok d := by
  induction e with
  | param h => exact ⟨_, rfl⟩
  | resolved r => exact hFree.elim
  | number x => exact ⟨_, rfl⟩
  | binary op left right hLeft hRight =>
      obtain ⟨dl, hLeft⟩ := hLeft hFree.1
      obtain ⟨dr, hRight⟩ := hRight hFree.2
      exact ⟨_, derivative_binary_eq_ok op hLeft hRight⟩
  | unary op operand hOperand =>
      obtain ⟨d, hOperand⟩ := hOperand hFree
      exact ⟨_, derivative_unary_eq_ok op hOperand⟩

end Expr

end Formula
