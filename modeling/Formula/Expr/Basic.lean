import Formula.Parameter.Record

/-!
Expressions: trees of arithmetic operators over numbers and parameters.
-/
namespace Formula

/-- Operators with two operands. -/
inductive BinaryOp where
  | add | sub | mul | div
deriving DecidableEq, Repr

/-- Operators with one operand. -/
inductive UnaryOp where
  | neg | sqrt | square | sin | cos
deriving DecidableEq, Repr

/-- Written form of an operator between its operands. -/
def BinaryOp.symbol : BinaryOp → Char
  | .add => '+'
  | .sub => '-'
  | .mul => '*'
  | .div => '/'

/-- Written form of an operator in front of its operand. -/
def UnaryOp.name : UnaryOp → List Char
  | .neg => ['-']
  | .sqrt => ['s', 'q', 'r', 't']
  | .square => ['s', 'q', 'u', 'a', 'r', 'e']
  | .sin => ['s', 'i', 'n']
  | .cos => ['c', 'o', 's']

/-- An expression. A parameter is named by its handle, to be looked up on evaluation, or it is
resolved: the leaf holds the shared record itself. -/
inductive Expr where
  | param (h : Handle)
  | resolved (r : Record)
  | number (x : Float)
  | binary (op : BinaryOp) (left right : Expr)
  | unary (op : UnaryOp) (operand : Expr)

namespace Expr

instance : Inhabited Expr := ⟨.number 0⟩
instance : Coe Float Expr := ⟨.number⟩
instance : Coe Handle Expr := ⟨.param⟩
instance : Add Expr := ⟨.binary .add⟩
instance : Sub Expr := ⟨.binary .sub⟩
instance : Mul Expr := ⟨.binary .mul⟩
instance : Div Expr := ⟨.binary .div⟩
instance : Neg Expr := ⟨.unary .neg⟩

/-- Square root of an expression. -/
def sqrt (e : Expr) : Expr := .unary .sqrt e

/-- Square of an expression. -/
def square (e : Expr) : Expr := .unary .square e

/-- Sine of an expression. -/
def sin (e : Expr) : Expr := .unary .sin e

/-- Cosine of an expression. -/
def cos (e : Expr) : Expr := .unary .cos e

/-- The value of an expression that is a number. -/
def number? : Expr → Option Float
  | .number x => some x
  | _ => none

/-- Operator and operands of an expression with a binary operator on top. -/
def binary? : Expr → Option (BinaryOp × Expr × Expr)
  | .binary op left right => some (op, left, right)
  | _ => none

/-- Operator and operand of an expression with a unary operator on top. -/
def unary? : Expr → Option (UnaryOp × Expr)
  | .unary op operand => some (op, operand)
  | _ => none

/-- Equality of structure. Numbers compare as doubles do, so zeros of both signs are equal and no
number differs from itself; resolved parameters compare by handle. -/
def beq : Expr → Expr → Bool
  | .param h, .param k => decide (h = k)
  | .resolved r, .resolved s => r.sameParameter s
  | .number x, .number y => x == y
  | .binary o a b, .binary p c d => decide (o = p) && a.beq c && b.beq d
  | .unary o a, .unary p b => decide (o = p) && a.beq b
  | _, _ => false

instance : BEq Expr := ⟨beq⟩

/-- Count of the nodes, leaves included. -/
def nodeCount : Expr → Nat
  | .binary _ left right => 1 + left.nodeCount + right.nodeCount
  | .unary _ operand => 1 + operand.nodeCount
  | _ => 1

/-- Count of the nodes on the longest path down to a leaf. -/
def maxDepth : Expr → Nat
  | .binary _ left right => 1 + max left.maxDepth right.maxDepth
  | .unary _ operand => 1 + operand.maxDepth
  | _ => 1

/-- Builds an expression anew from its leaves up. The copy holds the same records. -/
def copy : Expr → Expr
  | .binary op left right => .binary op left.copy right.copy
  | .unary op operand => .unary op operand.copy
  | e => e

/-- The copy is the same expression. -/
theorem copy_eq (e : Expr) : e.copy = e := by
  induction e with
  | param h => rfl
  | resolved r => rfl
  | number x => rfl
  | binary op left right hLeft hRight => rw [copy, hLeft, hRight]
  | unary op operand hOperand => rw [copy, hOperand]

end Expr

end Formula
