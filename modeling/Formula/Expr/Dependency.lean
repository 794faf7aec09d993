import Std.Data.TreeSet
import Formula.Expr.Walk

/-!
Questions about the leaves of an expression, answered by walks. The searches stop going down once
they have found what they look for.
-/
namespace Formula

/-- Counts the nodes that it is called at. -/
def nodeCounter : Visitor Nat where
  param _ n := (true, n + 1)
  resolved _ n := (true, n + 1)
  number _ n := (true, n + 1)
  binary _ _ _ n := (true, n + 1)
  unary _ _ n := (true, n + 1)

/-- A count goes up by the count of the nodes. -/
theorem walk_nodeCounter (e : Expr) (n : Nat) : e.walk nodeCounter n = n + e.nodeCount := by
  induction e generalizing n with
  | param h => rfl
  | resolved r => rfl
  | number x => rfl
  | binary op left right hLeft hRight =>
    change right.walk nodeCounter (left.walk nodeCounter (n + 1)) = _
    rw [hLeft, hRight, Expr.nodeCount]
    omega
  | unary op operand hOperand =>
    change operand.walk nodeCounter (n + 1) = _
    rw [hOperand, Expr.nodeCount]
    omega

/-- Collects the handles of parameters, named and resolved. -/
def handleCollector : Visitor (Std.TreeSet Handle) where
  param h seen := (true, seen.insert h)
  resolved r seen := (true, seen.insert r.handle)
  number _ seen := (true, seen)
  binary _ _ _ seen := (true, seen)
  unary _ _ seen := (true, seen)

/-- Searches for a parameter, named or resolved; its state says whether it was found. -/
def dependencyFinder (p : Handle) : Visitor Bool where
  param h found := let found := found || decide (h = p); (!found, found)
  resolved r found := let found := found || decide (r.handle = p); (!found, found)
  number _ found := (!found, found)
  binary _ _ _ found := (!found, found)
  unary _ _ found := (!found, found)

/-- Searches for a resolved parameter; its state says whether one was found. -/
def resolvedFinder : Visitor Bool where
  param _ found := (!found, found)
  resolved _ _ := (false, true)
  number _ found := (!found, found)
  binary _ _ _ found := (!found, found)
  unary _ _ found := (!found, found)

namespace Expr

/-- Handles of all parameters of an expression, in ascending order. -/
def paramsUsed (e : Expr) : List Handle :=
  (e.walk handleCollector ∅).toList

/-- Whether the parameter `p` occurs in an expression, named or resolved. -/
def dependsOn (e : Expr) (p : Handle) : Bool :=
  e.walk (dependencyFinder p) false

/-- Whether an expression has a resolved parameter. -/
def hasResolved (e : Expr) : Bool :=
  e.walk resolvedFinder false

end Expr

end Formula
