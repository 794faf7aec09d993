import Formula.Text.Stacks

/-!
From tokens to expressions, in one pass over the tokens. Operators wait on a stack until one that
binds less tightly, or the end of their group, gives them their operands.
-/
namespace Formula

/-- Whether the next token has to start an operand, or follows a complete one. -/
inductive Phase where
  | operandDue
  | operandDone
deriving DecidableEq, Repr

namespace Stacks

/-- Reads a token where an operand is due. A minus sign is a negation here; operators in front of
an operand are put on the stack as they come. -/
def readOperand (limits : Limits) (s : Stacks) (t : Token) : Except ParseError (Phase × Stacks) :=
  match t.kind with
  | .number x => do
    let operands ← pushOperand limits.stackCapacity (.number x) s.operands
    pure (.operandDone, { s with operands })
  | .openParen =>
    if limits.maxDepth ≤ s.openGroups then .error (.tooDeep limits.maxDepth t.span)
    else do
      let s ← pushOperator limits.stackCapacity .marker { s with openGroups := s.openGroups + 1 }
      pure (.operandDue, s)
  | .operator (.prefixed op) => do
    let s ← pushOperator limits.stackCapacity (.operator (.prefixed op)) s
    pure (.operandDue, s)
  | .operator (.binary .sub) => do
    let s ← pushOperator limits.stackCapacity (.operator (.prefixed .neg)) s
    pure (.operandDue, s)
  | _ => .error (.expectedExpression t.text t.span)

/-- Reads tokens up to the end of the group that was opened when `outer` groups were open. Answers
the stacks without the marker of that group, and the tokens that follow the group's expression. -/
def readGroup (limits : Limits) (outer : Nat) :
    Phase → Stacks → List Token → Except ParseError (Stacks × List Token)
  | .operandDue, _, [] => .error .unexpectedEnd
  | .operandDue, s, t :: tokens => do
    let (phase, s) ← s.readOperand limits t
    readGroup limits outer phase s tokens
  | .operandDone, s, [] => do
    let s' ← s.leave limits.stackCapacity
    if s.openGroups ≤ outer then pure (s', []) else .error .unexpectedEnd
  | .operandDone, s, t :: tokens =>
    match t.kind with
    | .operator (.binary op) => do
      let s ← s.pushBinary limits.stackCapacity op
      readGroup limits outer .operandDue s tokens
    | kind => do
      let s' ← s.leave limits.stackCapacity
      if s.openGroups ≤ outer then pure (s', t :: tokens)
      else match kind with
        | .closeParen =>
          readGroup limits outer .operandDone { s' with openGroups := s.openGroups - 1 } tokens
        | _ => .error (.expectedCloseParen t.text t.span)

/-- Reads one expression on top of given stacks: a group of its own, without parentheses. Answers
the stacks with the expression on top, and the tokens that follow it. -/
def readExpr (limits : Limits) (s : Stacks) (tokens : List Token) :
    Except ParseError (Stacks × List Token) := do
  let inner ← s.pushOperator limits.stackCapacity .marker
  readGroup limits s.openGroups .operandDue inner tokens

end Stacks

namespace Expr

/-- The expression that a whole list of tokens makes. -/
def ofTokens (limits : Limits) (tokens : List Token) : Except ParseError Expr := do
  let (s, rest) ← Stacks.empty.readExpr limits tokens
  match rest with
  | t :: _ => .error (.unexpectedToken t.text t.span)
  | [] =>
    let (e, _) ← Stacks.popOperand s.operands
    pure e

/-- Reads characters as an expression: numbers, parentheses, the four operators of arithmetic, minus
signs and `sqrt` in front of an operand. -/
def ofChars (limits : Limits) (text : List Char) : Except ParseError Expr := do
  let tokens ← Token.ofChars limits text
  ofTokens limits tokens

/-- Reads a text as an expression. -/
def parse (limits : Limits) (text : String) : Except ParseError Expr :=
  ofChars limits text.toList

/-- Reads a text as an expression, without a reason when it is none. -/
def parse? (limits : Limits) (text : String) : Option Expr :=
  (parse limits text).toOption

end Expr

end Formula
