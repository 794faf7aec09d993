import Formula.Expr.Basic

/-!
Walks through an expression, from the root down and from left to right. A visitor is called at
every node that the walk reaches; its answer at an inner node says whether the walk goes on to the
operands.
-/
namespace Formula

universe u

/-- Calls for the kinds of nodes. Each takes the visitor's state and answers whether to go on below
the node, with the new state; the answers at leaves have no use. -/
structure Visitor (σ : Type u) where
  param : Handle → σ → Bool × σ
  resolved : Record → σ → Bool × σ
  number : Float → σ → Bool × σ
  binary : BinaryOp → Expr → Expr → σ → Bool × σ
  unary : UnaryOp → Expr → σ → Bool × σ

/-- State of the visitor after the walk through an expression. -/
def Expr.walk {σ : Type u} (v : Visitor σ) : Expr → σ → σ
  | .param h, s => (v.param h s).2
  | .resolved r, s => (v.resolved r s).2
  | .number x, s => (v.number x s).2
  | .binary op left right, s =>
    let (goesOn, s) := v.binary op left right s
    if goesOn then right.walk v (left.walk v s) else s
  | .unary op operand, s =>
    let (goesOn, s) := v.unary op operand s
    if goesOn then operand.walk v s else s

end Formula
