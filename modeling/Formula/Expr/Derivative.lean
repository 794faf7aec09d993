import Formula.Expr.Basic

/-!
Partial derivatives by the rules of calculus. Every rule writes out its textbook form and nothing
is simplified, so the operands of the expression reappear in its derivative.
-/
namespace Formula

/-- Why an expression has no derivative: it holds a resolved parameter, of which it is not known
whether it varies. -/
inductive DerivativeError where
  | resolvedParameter (h : Handle)
deriving DecidableEq, Repr

/-- Text of the error. -/
def DerivativeError.message : DerivativeError → String
  | .resolvedParameter h =>
    "cannot differentiate resolved parameter reference p" ++ String.ofList h.text

/-- Derivative of an expression with respect to the parameter `p`. The leftmost resolved parameter
is the one that is reported. -/
def Expr.derivative (p : Handle) : Expr → Except DerivativeError Expr
  | .param h => .ok (.number (if h = p then 1 else 0))
  | .resolved r => .error (.resolvedParameter r.handle)
  | .number _ => .ok (.number 0)
  | .binary op u v => do
    let du ← u.derivative p
    let dv ← v.derivative p
    match op with
    | .add => pure (du + dv)
    | .sub => pure (du - dv)
    | .mul => pure (u * dv + v * du)
    | .div => pure ((du * v - u * dv) / v.square)
  | .unary op u => do
    let du ← u.derivative p
    match op with
    | .neg => pure (-du)
    | .sqrt => pure (.number 0.5 / u.sqrt * du)
    | .square => pure (.number 2 * u * du)
    | .sin => pure (u.cos * du)
    | .cos => pure (-(u.sin * du))

end Formula
