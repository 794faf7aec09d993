import Formula.Expr.Dependency

/-! Which parameters occur in an expression. The searches stop early and carry what they have found
from one subtree to the next; what they answer depends on the leaves alone. -/
namespace Formula.Expr

/-- A parameter is named or resolved at some leaf. -/
def Mentions (p : Handle) : Expr → Prop
  | .param h => h = p
  | .resolved r => r.handle = p
  | .number _ => False
  | .binary _ left right => left.Mentions p ∨ right.Mentions p
  | .unary _ operand => operand.Mentions p

/-- No leaf is a resolved parameter. -/
def Unresolved : Expr → Prop
  | .param _ | .number _ => True
  | .resolved _ => False
  | .binary _ left right => left.Unresolved ∧ right.Unresolved
  | .unary _ operand => operand.Unresolved

/-- A search that starts with what was found before goes on only if that was nothing. -/
theorem walk_dependencyFinder (e : Expr) (p : Handle) (found : Bool) :
    e.walk (dependencyFinder p) found = true ↔ found = true ∨ e.Mentions p := by
  induction e generalizing found with
  | param h => simp [walk, dependencyFinder, Mentions]
  | resolved r => simp [walk, dependencyFinder, Mentions]
  | number x => simp [walk, dependencyFinder, Mentions]
  | binary op left right hLeft hRight =>
      cases found with
      | true => simp [walk, dependencyFinder]
      | false =>
          show right.walk _ (left.walk _ false) = true ↔ _
          rw [hRight, hLeft, Mentions, or_assoc]
  | unary op operand hOperand =>
      cases found with
      | true => simp [walk, dependencyFinder]
      | false => exact hOperand false

/-- The search for resolved parameters stops at the first one, and it keeps what was found
before. -/
theorem walk_resolvedFinder (e : Expr) (found : Bool) :
    e.walk resolvedFinder found = true ↔ found = true ∨ ¬ e.Unresolved := by
  induction e generalizing found with
  | param h => simp [walk, resolvedFinder, Unresolved]
  | resolved r => simp [walk, resolvedFinder, Unresolved]
  | number x => simp [walk, resolvedFinder, Unresolved]
  | binary op left right hLeft hRight =>
      cases found with
      | true => simp [walk, resolvedFinder]
      | false =>
          show right.walk _ (left.walk _ false) = true ↔ _
          rw [hRight, hLeft, Unresolved, Classical.not_and_iff_not_or_not, or_assoc]
  | unary op operand hOperand =>
      cases found with
      | true => simp [walk, resolvedFinder]
      | false => exact hOperand false

/-- A collection keeps what was seen before and adds what is mentioned. -/
theorem mem_walk_handleCollector (e : Expr) (p : Handle) (seen : Std.TreeSet Handle) :
    p ∈ e.walk handleCollector seen ↔ p ∈ seen ∨ e.Mentions p := by
  induction e generalizing seen with
  | param h => simp [walk, handleCollector, Mentions, or_comm]
  | resolved r => simp [walk, handleCollector, Mentions, or_comm]
  | number x => simp [walk, handleCollector, Mentions]
  | binary op left right hLeft hRight =>
      show p ∈ right.walk handleCollector (left.walk handleCollector seen) ↔ _
      rw [hRight, hLeft, Mentions, or_assoc]
  | unary op operand hOperand => exact hOperand seen

/-- The parameters that are listed are those that are mentioned, each at whatever leaf. -/
theorem mem_paramsUsed_iff (e : Expr) (p : Handle) : p ∈ e.paramsUsed ↔ e.Mentions p := by
  rw [paramsUsed, Std.TreeSet.mem_toList, mem_walk_handleCollector]
  simp

theorem dependsOn_iff (e : Expr) (p : Handle) : e.dependsOn p = true ↔ e.Mentions p := by
  rw [dependsOn, walk_dependencyFinder]
  simp

theorem hasResolved_iff (e : Expr) : e.hasResolved = true ↔ ¬ e.Unresolved := by
  rw [hasResolved, walk_resolvedFinder]
  simp

end Formula.Expr
