import Mathlib.Tactic.Ring
import Formula.Proofs.RepeatedDerivatives

/-! How much larger a derivative is than its expression. The rules write operands again, the
divisor even twice, so neither measure bounds itself: what a rule adds is a multiple of the nodes
below, and the depth above them says how often that happens. -/
namespace Formula

open Formula.Expr

/-- Nodes that a rule adds to the derivatives of operands with `u` and `w` nodes: operators,
numbers and the operands that it writes again. -/
def BinaryOp.added (u w : Nat) : BinaryOp → Nat
  | .add | .sub => 1
  | .mul => 3 + u + w
  | .div => 5 + u + 2 * w

/-- Nodes that a rule adds to the derivative of an operand with `u` nodes. -/
def UnaryOp.added (u : Nat) : UnaryOp → Nat
  | .neg => 1
  | .sqrt => 4 + u
  | .square => 3 + u
  | .sin => 2 + u
  | .cos => 3 + u

/-- The derivatives of both operands occur once in each rule; all else is what the rule adds. -/
theorem BinaryOp.nodeCount_rule (op : BinaryOp) (u w du dw : Expr) :
    (op.rule u w du dw).nodeCount =
      op.added u.nodeCount w.nodeCount + du.nodeCount + dw.nodeCount := by
  cases op with
  | add => rfl
  | sub => rfl
  | mul =>
      show 1 + (1 + u.nodeCount + dw.nodeCount) + (1 + w.nodeCount + du.nodeCount) =
        3 + u.nodeCount + w.nodeCount + du.nodeCount + dw.nodeCount
      omega
  | div =>
      show 1 + (1 + (1 + du.nodeCount + w.nodeCount) + (1 + u.nodeCount + dw.nodeCount)) +
        (1 + w.nodeCount) = 5 + u.nodeCount + 2 * w.nodeCount + du.nodeCount + dw.nodeCount
      omega

/-- The rules for one operand write its derivative once and the operand itself once at most. -/
theorem UnaryOp.nodeCount_rule (op : UnaryOp) (u du : Expr) :
    (op.rule u du).nodeCount = op.added u.nodeCount + du.nodeCount := by
  cases op with
  | neg => rfl
  | sqrt =>
      show 1 + (1 + 1 + (1 + u.nodeCount)) + du.nodeCount = 4 + u.nodeCount + du.nodeCount
      omega
  | square =>
      show 1 + (1 + 1 + u.nodeCount) + du.nodeCount = 3 + u.nodeCount + du.nodeCount
      omega
  | sin =>
      show 1 + (1 + u.nodeCount) + du.nodeCount = 2 + u.nodeCount + du.nodeCount
      omega
  | cos =>
      show 1 + (1 + (1 + u.nodeCount) + du.nodeCount) = 3 + u.nodeCount + du.nodeCount
      omega

/-- The dividend of the quotient rule stands deepest, below three operators. -/
theorem BinaryOp.maxDepth_rule_le (op : BinaryOp) (u w du dw : Expr) :
    (op.rule u w du dw).maxDepth ≤
      3 + max (max u.maxDepth w.maxDepth) (max du.maxDepth dw.maxDepth) := by
  cases op with
  | add =>
      show 1 + max du.maxDepth dw.maxDepth ≤ _
      omega
  | sub =>
      show 1 + max du.maxDepth dw.maxDepth ≤ _
      omega
  | mul =>
      show 1 + max (1 + max u.maxDepth dw.maxDepth) (1 + max w.maxDepth du.maxDepth) ≤ _
      omega
  | div =>
      show 1 + max (1 + max (1 + max du.maxDepth w.maxDepth) (1 + max u.maxDepth dw.maxDepth))
        (1 + w.maxDepth) ≤ _
      omega

theorem UnaryOp.maxDepth_rule_le (op : UnaryOp) (u du : Expr) :
    (op.rule u du).maxDepth ≤ 3 + max u.maxDepth du.maxDepth := by
  cases op with
  | neg =>
      show 1 + du.maxDepth ≤ _
      omega
  | sqrt =>
      show 1 + max (1 + max 1 (1 + u.maxDepth)) du.maxDepth ≤ _
      omega
  | square =>
      show 1 + max (1 + max 1 u.maxDepth) du.maxDepth ≤ _
      omega
  | sin =>
      show 1 + max (1 + u.maxDepth) du.maxDepth ≤ _
      omega
  | cos =>
      show 1 + (1 + max (1 + u.maxDepth) du.maxDepth) ≤ _
      omega

/-- How the derivative `d` of an expression `e` compares with it. -/
structure Expr.Grows (e d : Expr) : Prop where
  le_nodeCount : e.nodeCount ≤ d.nodeCount
  nodeCount_le : d.nodeCount ≤ (2 * e.maxDepth + 1) * e.nodeCount
  maxDepth_le : d.maxDepth + 2 ≤ 3 * e.maxDepth

namespace Expr.Grows

variable {e d u w du dw : Expr}

theorem one_le_maxDepth (hGrows : e.Grows d) : 1 ≤ e.maxDepth := by
  have hDepth := hGrows.maxDepth_le
  omega

/-- The bound on the nodes of an operand, told with the depth `m` of the operands together. -/
theorem nodeCount_le_of_le (hGrows : e.Grows d) {m : Nat} (hDepth : e.maxDepth ≤ m) :
    d.nodeCount ≤ (2 * m + 1) * e.nodeCount :=
  Nat.le_trans hGrows.nodeCount_le (Nat.mul_le_mul_right _ (by omega))

/-- The bounds pass from the operands to a binary operator. The depth above the operands is larger
by one, which pays for the copies of them that a rule writes. -/
theorem binary (op : BinaryOp) (hLeft : u.Grows du) (hRight : w.Grows dw) :
    (Expr.binary op u w).Grows (op.rule u w du dw) := by
  have hPos := Nat.le_trans hLeft.one_le_maxDepth (Nat.le_max_left u.maxDepth w.maxDepth)
  have hLeftCount := hLeft.nodeCount_le_of_le (Nat.le_max_left u.maxDepth w.maxDepth)
  have hRightCount := hRight.nodeCount_le_of_le (Nat.le_max_right u.maxDepth w.maxDepth)
  have hCount : (Expr.binary op u w).nodeCount = 1 + u.nodeCount + w.nodeCount := rfl
  have hDepth : (Expr.binary op u w).maxDepth = 1 + max u.maxDepth w.maxDepth := rfl
  have hAdded : 1 ≤ op.added u.nodeCount w.nodeCount ∧
      op.added u.nodeCount w.nodeCount ≤ 5 + u.nodeCount + 2 * w.nodeCount := by
    cases op <;> simp only [BinaryOp.added] <;> omega
  refine ⟨?_, ?_, ?_⟩
  · have hLeftLe := hLeft.le_nodeCount
    have hRightLe := hRight.le_nodeCount
    rw [op.nodeCount_rule, hCount]
    omega
  · rw [op.nodeCount_rule, hCount, hDepth]
    generalize max u.maxDepth w.maxDepth = m at hPos hLeftCount hRightCount
    have hSplit : (2 * (1 + m) + 1) * (1 + u.nodeCount + w.nodeCount) =
        2 * m + 3 + ((2 * m + 1) * u.nodeCount + (2 * m + 1) * w.nodeCount) +
          2 * (u.nodeCount + w.nodeCount) := by ring
    omega
  · have hRule := op.maxDepth_rule_le u w du dw
    have hLeftDepth := hLeft.maxDepth_le
    have hRightDepth := hRight.maxDepth_le
    rw [hDepth]
    omega

theorem unary (op : UnaryOp) (hOperand : u.Grows du) :
    (Expr.unary op u).Grows (op.rule u du) := by
  have hPos := hOperand.one_le_maxDepth
  have hOperandCount := hOperand.nodeCount_le
  have hCount : (Expr.unary op u).nodeCount = 1 + u.nodeCount := rfl
  have hDepth : (Expr.unary op u).maxDepth = 1 + u.maxDepth := rfl
  have hAdded : 1 ≤ op.added u.nodeCount ∧ op.added u.nodeCount ≤ 4 + u.nodeCount := by
    cases op <;> simp only [UnaryOp.added] <;> omega
  refine ⟨?_, ?_, ?_⟩
  · have hLe := hOperand.le_nodeCount
    rw [op.nodeCount_rule, hCount]
    omega
  · rw [op.nodeCount_rule, hCount, hDepth]
    have hSplit : (2 * (1 + u.maxDepth) + 1) * (1 + u.nodeCount) =
        2 * u.maxDepth + 3 + (2 * u.maxDepth + 1) * u.nodeCount + 2 * u.nodeCount := by ring
    omega
  · have hRule := op.maxDepth_rule_le u du
    have hOperandDepth := hOperand.maxDepth_le
    rw [hDepth]
    omega

/-- Every derivative is within the bounds. A leaf is replaced by a leaf, so they start tight. -/
theorem of_derivative {p : Handle} (hDerivative : e.derivative p = .ok d) : e.Grows d := by
  induction e generalizing d with
  | param h =>
      cases hDerivative
      exact ⟨Nat.le_refl 1, Nat.le_add_left 1 2, Nat.le_refl 3⟩
  | resolved r => cases hDerivative
  | number x =>
      cases hDerivative
      exact ⟨Nat.le_refl 1, Nat.le_add_left 1 2, Nat.le_refl 3⟩
  | binary op left right hLeft hRight =>
      obtain ⟨dl, dr, hLeftOk, hRightOk, rfl⟩ := (derivative_binary_eq_ok_iff op).mp hDerivative
      exact binary op (hLeft hLeftOk) (hRight hRightOk)
  | unary op operand hOperand =>
      obtain ⟨du, hOperandOk, rfl⟩ := (derivative_unary_eq_ok_iff op).mp hDerivative
      exact unary op (hOperand hOperandOk)

end Expr.Grows

/-- The depth above one, which is that of a leaf, is tripled at most by each derivative. -/
theorem Expr.maxDepth_derivatives_le {e d : Expr} {ps : List Handle}
    (hDerivatives : e.derivatives ps = .ok d) :
    d.maxDepth + 3 ^ ps.length ≤ 3 ^ ps.length * e.maxDepth + 1 := by
  induction ps generalizing e with
  | nil =>
      cases hDerivatives
      simp
  | cons p ps ih =>
      rw [derivatives, List.foldlM_cons] at hDerivatives
      cases hFirst : e.derivative p with
      | error error =>
          rw [hFirst] at hDerivatives
          cases hDerivatives
      | ok first =>
          rw [hFirst] at hDerivatives
          have hRest := ih (e := first) hDerivatives
          have hStep := (Grows.of_derivative hFirst).maxDepth_le
          calc
            d.maxDepth + 3 ^ (ps.length + 1) =
                d.maxDepth + 3 ^ ps.length + 2 * 3 ^ ps.length := by ring
            _ ≤ 3 ^ ps.length * first.maxDepth + 1 + 2 * 3 ^ ps.length :=
              Nat.add_le_add_right hRest _
            _ = 3 ^ ps.length * (first.maxDepth + 2) + 1 := by ring
            _ ≤ 3 ^ ps.length * (3 * e.maxDepth) + 1 :=
              Nat.add_le_add_right (Nat.mul_le_mul_left _ hStep) 1
            _ = 3 ^ (ps.length + 1) * e.maxDepth + 1 := by ring

/-- The derivative of an expression without resolved parameters has at least as many nodes as the
expression, and at most twice its depth and one as many. Its depth is less than tripled, so a
derivative of order `k` is at most `3 ^ k` times as deep. -/
theorem derivative_growth (e : Expr) (hFree : e.Unresolved) :
    (∀ p, ∃ d, e.derivative p = .ok d ∧ e.nodeCount ≤ d.nodeCount ∧
      d.nodeCount ≤ (2 * e.maxDepth + 1) * e.nodeCount ∧ d.maxDepth ≤ 3 * e.maxDepth - 2) ∧
    ∀ ps, ∃ d, e.derivatives ps = .ok d ∧ d.maxDepth ≤ 3 ^ ps.length * e.maxDepth := by
  refine ⟨fun p => ?_, fun ps => ?_⟩
  · obtain ⟨d, hOk⟩ := exists_derivative hFree p
    have hGrows := Grows.of_derivative hOk
    have hDepth := hGrows.maxDepth_le
    exact ⟨d, hOk, hGrows.le_nodeCount, hGrows.nodeCount_le, by omega⟩
  · obtain ⟨d, hOk, -⟩ := hFree.namesOnly.exists_derivatives ps
    have hDepth := maxDepth_derivatives_le hOk
    have hPos : 0 < 3 ^ ps.length := Nat.pow_pos (by decide)
    exact ⟨d, hOk, by omega⟩

/-- A quotient with a quotient as its dividend, whose derivative is as deep as the bound allows. -/
theorem derivative_growth_of_quotients :
    let e : Expr := .binary .div (.binary .div (.param ⟨1⟩) (.param ⟨2⟩)) (.param ⟨3⟩)
    e.Unresolved ∧
      (∃ d, e.derivative ⟨1⟩ = .ok d ∧ 5 ≤ d.nodeCount ∧ d.nodeCount ≤ 35 ∧ d.maxDepth ≤ 7) ∧
        ∃ d, e.derivatives [⟨1⟩, ⟨2⟩] = .ok d ∧ d.maxDepth ≤ 27 := by
  intro e
  have hFree : e.Unresolved := ⟨⟨trivial, trivial⟩, trivial⟩
  obtain ⟨hOne, hMany⟩ := derivative_growth e hFree
  exact ⟨hFree, hOne ⟨1⟩, hMany [⟨1⟩, ⟨2⟩]⟩

example : ((Expr.binary .div (.binary .div (.param ⟨1⟩) (.param ⟨2⟩)) (.param ⟨3⟩)).derivative
    ⟨1⟩).map (·.maxDepth) = .ok 7 := rfl

end Formula
