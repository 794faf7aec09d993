import Formula.Expr.Basic

/-!
Written forms of expressions. Every operator is written with its own parentheses, so the form
needs no precedence; numbers keep three decimals.
-/
namespace Formula.Expr

/-- Places of a number in the written form of an expression. -/
def places : Nat := 3

/-- Writes an expression in front of the text that follows it. -/
def write : Expr → List Char → List Char
  | .param h, rest => ['p', 'a', 'r', 'a', 'm', '('] ++ h.text ++ ')' :: rest
  | .resolved r, rest => ['p', 'a', 'r', 'a', 'm', '(', 'p'] ++ r.handle.text ++ ')' :: rest
  | .number x, rest => Decimal.fixed places x ++ rest
  | .binary op left right, rest =>
    '(' :: left.write (' ' :: op.symbol :: ' ' :: right.write (')' :: rest))
  | .unary op operand, rest => '(' :: op.name ++ ' ' :: operand.write (')' :: rest)

/-- What follows an expression has no part in how it is written. -/
theorem write_append (e : Expr) (rest more : List Char) :
    e.write (rest ++ more) = e.write rest ++ more := by
  induction e generalizing rest with
  | param h => simp [write]
  | resolved r => simp [write]
  | number x => simp [write]
  | binary op left right hLeft hRight =>
    simp [write, ← hLeft, ← hRight]
  | unary op operand hOperand =>
    simp [write, ← hOperand]

/-- Written form of an expression. -/
def print (e : Expr) : String :=
  String.ofList (e.write [])

/-- Appends the written form of an expression to a text. -/
def printInto (text : String) (e : Expr) : String :=
  text ++ e.print

end Formula.Expr
