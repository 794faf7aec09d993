import Formula.Text.Token

/-!
The two stacks on which an expression is put together: operands that are complete, and operators
that still wait for one. All open groups share the stacks; each has a marker on the operator stack,
below which nothing is touched while the group is open.
-/
namespace Formula

/-- Entry of the operator stack. -/
inductive Entry where
  /-- Start of a group. -/
  | marker
  | operator (op : Operator)
deriving DecidableEq, Repr

/-- How tightly an entry binds. A marker binds less than any operator. -/
def Entry.precedence : Entry → Nat
  | .marker => 0
  | .operator op => op.precedence

/-- State of reading: the stacks, their tops first, and the count of open groups. -/
structure Stacks where
  operands : List Expr
  operators : List Entry
  openGroups : Nat

namespace Stacks

/-- The state before anything is read. -/
def empty : Stacks := ⟨[], [], 0⟩

/-- One more operand on a stack of bounded height. -/
def pushOperand (capacity : Nat) (e : Expr) (operands : List Expr) :
    Except ParseError (List Expr) :=
  if capacity ≤ operands.length then .error (.stackFull .operand) else .ok (e :: operands)

/-- The top operand and the others. -/
def popOperand : List Expr → Except ParseError (Expr × List Expr)
  | [] => .error (.stackEmpty .operand)
  | e :: operands => .ok (e, operands)

/-- One more entry on the operator stack of bounded height. -/
def pushOperator (capacity : Nat) (entry : Entry) (s : Stacks) : Except ParseError Stacks :=
  if capacity ≤ s.operators.length then .error (.stackFull .operator)
  else .ok { s with operators := entry :: s.operators }

/-- Replaces the operands of an operator by the node that it makes of them. A marker makes none. -/
def reduce (capacity : Nat) (operands : List Expr) : Entry → Except ParseError (List Expr)
  | .marker => .error (.stackEmpty .operator)
  | .operator (.binary op) => do
    let (right, operands) ← popOperand operands
    let (left, operands) ← popOperand operands
    pushOperand capacity (.binary op left right) operands
  | .operator (.prefixed op) => do
    let (operand, operands) ← popOperand operands
    pushOperand capacity (.unary op.toUnary operand) operands

/-- Reduces the entries on top of the operator stack that bind at least as tightly as the given
precedence, and answers what is left of both stacks. -/
def reduceFrom (capacity precedence : Nat) :
    List Entry → List Expr → Except ParseError (List Entry × List Expr)
  | [], _ => .error (.stackEmpty .operator)
  | top :: operators, operands =>
    if precedence ≤ top.precedence then do
      let operands ← reduce capacity operands top
      reduceFrom capacity precedence operators operands
    else .ok (top :: operators, operands)

/-- Adds a binary operator, after all that binds at least as tightly has got its operands. -/
def pushBinary (capacity : Nat) (op : BinaryOp) (s : Stacks) : Except ParseError Stacks := do
  let (operators, operands) ←
    reduceFrom capacity (Operator.binary op).precedence s.operators s.operands
  pushOperator capacity (.operator (.binary op)) { s with operators, operands }

/-- Completes a group: reduces all of its operators and takes its marker away. -/
def leave (capacity : Nat) (s : Stacks) : Except ParseError Stacks := do
  let (operators, operands) ← reduceFrom capacity 1 s.operators s.operands
  match operators with
  | [] => .error (.stackEmpty .operator)
  | _ :: operators => .ok { s with operators, operands }

end Stacks

end Formula
