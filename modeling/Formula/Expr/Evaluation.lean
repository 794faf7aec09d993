import Formula.Expr.Basic
import Formula.Parameter.Store

/-!
Values of expressions. An expression has a value in every arithmetic that interprets numbers and
operators; the doubles are one such arithmetic, and the one that stores are evaluated in.
-/
namespace Formula

universe u

/-- An interpretation of numbers and operators. The square is no operation of its own: it is the
product of a value with itself. -/
structure Arithmetic (α : Type u) where
  number : Float → α
  add : α → α → α
  sub : α → α → α
  mul : α → α → α
  div : α → α → α
  neg : α → α
  sqrt : α → α
  sin : α → α
  cos : α → α

namespace Arithmetic

variable {α : Type u}

/-- Value of a binary operator. -/
def binary (A : Arithmetic α) : BinaryOp → α → α → α
  | .add => A.add
  | .sub => A.sub
  | .mul => A.mul
  | .div => A.div

/-- Value of a unary operator. -/
def unary (A : Arithmetic α) : UnaryOp → α → α
  | .neg => A.neg
  | .sqrt => A.sqrt
  | .square => fun x => A.mul x x
  | .sin => A.sin
  | .cos => A.cos

/-- Double arithmetic: every operation rounds, and none fails. -/
def binary64 : Arithmetic Float where
  number := id
  add := Float.add
  sub := Float.sub
  mul := Float.mul
  div := Float.div
  neg := Float.neg
  sqrt := Float.sqrt
  sin := Float.sin
  cos := Float.cos

end Arithmetic

/-- Values for the two kinds of parameter leaves. -/
structure Valuation (α : Type u) where
  param : Handle → α
  resolved : Record → α

namespace Expr

/-- Value of an expression in an arithmetic, under a valuation of its parameters. -/
def evalWith {α : Type u} (A : Arithmetic α) (v : Valuation α) : Expr → α
  | .param h => v.param h
  | .resolved r => v.resolved r
  | .number x => A.number x
  | .binary op left right => A.binary op (left.evalWith A v) (right.evalWith A v)
  | .unary op operand => A.unary op (operand.evalWith A v)

/-- Value of an expression as a double. Named parameters are looked up in the store; a resolved
parameter has the current value of its record, whatever the store says of its handle. -/
def eval (s : Store) (g : Registry) (e : Expr) : Float :=
  e.evalWith .binary64 ⟨s.lookup g, g.read⟩

end Expr

end Formula
