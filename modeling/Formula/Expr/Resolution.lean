import Formula.Expr.Basic
import Formula.Parameter.Store

/-!
Resolution: the named parameters of an expression are replaced by the records that a store hands
out for them, and keep their names where it has none. Resolved parameters keep their records.
-/
namespace Formula.Expr

universe u

/-- Replaces the named parameters by the records that `find` answers, from left to right. -/
def resolveM {m : Type → Type u} [Monad m] (find : Handle → m (Option Record)) : Expr → m Expr
  | .param h => do
    match ← find h with
    | some r => pure (.resolved r)
    | none => pure (.param h)
  | .resolved r => pure (.resolved r)
  | .number x => pure (.number x)
  | .binary op left right => do
    let left ← left.resolveM find
    let right ← right.resolveM find
    pure (.binary op left right)
  | .unary op operand => do
    let operand ← operand.resolveM find
    pure (.unary op operand)

/-- Resolves an expression against a store. The store may create records on the way. -/
def resolve (s : Store) (e : Expr) (g : Registry) : Expr × Registry :=
  e.resolveM (m := StateM Registry) s.resolve g

end Formula.Expr
