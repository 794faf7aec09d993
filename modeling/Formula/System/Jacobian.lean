import Formula.Expr.Dependency
import Formula.Expr.Derivative
import Formula.Expr.Evaluation

/-!
Systems of expressions: gradients, Jacobian matrices and their values.
-/
namespace Formula

/-- Entry of a gradient. An expression without the parameter is not differentiated: its entry is
zero. One with a resolved parameter always is, and fails. -/
def Expr.gradientEntry (e : Expr) (p : Handle) : Except DerivativeError Expr :=
  if e.dependsOn p || e.hasResolved then e.derivative p else .ok (.number 0)

/-- Derivatives of an expression with respect to each of the parameters. -/
def gradient (e : Expr) (ps : List Handle) : Except DerivativeError (List Expr) :=
  ps.mapM e.gradientEntry

/-- Gradients of the expressions, one row for each. -/
def jacobian (es : List Expr) (ps : List Handle) : Except DerivativeError (List (List Expr)) :=
  es.mapM fun e => gradient e ps

/-- Values of a matrix of expressions. -/
def evalMatrix (s : Store) (g : Registry) (rows : List (List Expr)) : List (List Float) :=
  rows.map fun row => row.map (·.eval s g)

/-- Values of the expressions at each of the stores, one row for each store. -/
def evalBatch (es : List Expr) (stores : List Store) (g : Registry) : List (List Float) :=
  stores.map fun s => es.map (·.eval s g)

end Formula
