import Formula.Text.Token

/-!
The grammar of expressions, as a type of syntax trees:

* a sum is a product, or a sum, a plus or minus sign and a product;
* a product is a factor, or a product, a times or division sign and a factor;
* a factor is a number, a sum in parentheses, or a factor with a minus sign or `sqrt` in front.

A tree gives the tokens that it is written with and the expression that it stands for. Sums and
products grow to the right, so their operators associate to the left.
-/
namespace Formula.Grammar

/-- Operators between the products of a sum. -/
inductive SumOp where
  | plus
  | minus
deriving DecidableEq, Repr

/-- Operators between the factors of a product. -/
inductive ProductOp where
  | times
  | over
deriving DecidableEq, Repr

/-- The binary operator of a sum. -/
def SumOp.toBinary : SumOp → BinaryOp
  | .plus => .add
  | .minus => .sub

/-- The binary operator of a product. -/
def ProductOp.toBinary : ProductOp → BinaryOp
  | .times => .mul
  | .over => .div

/-- The token of an operator in front of a factor. A negation is written with a minus sign. -/
def prefixKind : PrefixOp → TokenKind
  | .neg => .operator (.binary .sub)
  | .sqrt => .operator (.prefixed .sqrt)

mutual

/-- Syntax tree of a sum. -/
inductive Sum where
  | single (p : Product)
  | join (s : Sum) (op : SumOp) (p : Product)

/-- Syntax tree of a product. -/
inductive Product where
  | single (f : Factor)
  | join (p : Product) (op : ProductOp) (f : Factor)

/-- Syntax tree of a factor. -/
inductive Factor where
  | number (x : Float)
  | group (s : Sum)
  | prefixed (op : PrefixOp) (f : Factor)

end

mutual

/-- The tokens that a sum is written with. -/
def Sum.kinds : Sum → List TokenKind
  | .single p => p.kinds
  | .join s op p => s.kinds ++ .operator (.binary op.toBinary) :: p.kinds

/-- The tokens that a product is written with. -/
def Product.kinds : Product → List TokenKind
  | .single f => f.kinds
  | .join p op f => p.kinds ++ .operator (.binary op.toBinary) :: f.kinds

/-- The tokens that a factor is written with. -/
def Factor.kinds : Factor → List TokenKind
  | .number x => [.number x]
  | .group s => .openParen :: s.kinds ++ [.closeParen]
  | .prefixed op f => prefixKind op :: f.kinds

end

mutual

/-- The expression that a sum stands for. -/
def Sum.expr : Sum → Expr
  | .single p => p.expr
  | .join s op p => .binary op.toBinary s.expr p.expr

/-- The expression that a product stands for. -/
def Product.expr : Product → Expr
  | .single f => f.expr
  | .join p op f => .binary op.toBinary p.expr f.expr

/-- The expression that a factor stands for. -/
def Factor.expr : Factor → Expr
  | .number x => .number x
  | .group s => s.expr
  | .prefixed op f => .unary op.toUnary f.expr

end

mutual

/-- Most parentheses that are open at one place of a sum. -/
def Sum.nesting : Sum → Nat
  | .single p => p.nesting
  | .join s _ p => max s.nesting p.nesting

/-- Most parentheses that are open at one place of a product. -/
def Product.nesting : Product → Nat
  | .single f => f.nesting
  | .join p _ f => max p.nesting f.nesting

/-- Most parentheses that are open at one place of a factor. -/
def Factor.nesting : Factor → Nat
  | .number _ => 0
  | .group s => s.nesting + 1
  | .prefixed _ f => f.nesting

end

/-- Tokens that are the written form of a sum. -/
def IsSentence (kinds : List TokenKind) : Prop :=
  ∃ s : Sum, s.kinds = kinds

end Formula.Grammar
