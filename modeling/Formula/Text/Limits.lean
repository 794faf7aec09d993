/-!
Limits of the reader of expressions.
-/
namespace Formula

/-- How much a text may hold. -/
structure Limits where
  /-- Most tokens of a text. -/
  maxTokens : Nat := 1024
  /-- Most entries of each of the two stacks. -/
  stackCapacity : Nat := 1024
  /-- Most groups of parentheses that are open at a time. -/
  maxDepth : Nat := 256
  /-- Most bytes of a number or a name. -/
  maxLiteralLength : Nat := 30
deriving DecidableEq, Repr, Inhabited

/-- The limits that hold unless others are asked for. -/
def Limits.standard : Limits := {}

end Formula
