import Mathlib
import Formula.Expr.Evaluation
import Formula.Proofs.Leaves

/-! Derivatives over the real numbers. Expressions are read in exact arithmetic here, where the
rules of differentiation are the theorems of calculus; rounding has no part in what is proved. -/
namespace Formula

open Binary64

/-- The real number that a finite double stands for. The other doubles get a number as well, and
nothing depends on which. -/
noncomputable def Binary64.toReal (x : Float) : ℝ :=
  (if signBit x then -1 else 1) * ((units (rank x) : ℝ) / scale)

/-- The real number of a double is found by comparing whole numbers, so those of the rules are
computed. -/
theorem Binary64.toReal_eq_div {x : Float} (num den : Nat) (hSign : signBit x = false)
    (hDen : den ≠ 0) (hUnits : units (rank x) * den = num * scale) :
    toReal x = (num : ℝ) / den := by
  have hScale : (scale : ℝ) ≠ 0 := Nat.cast_ne_zero.mpr (by decide)
  have hDen : (den : ℝ) ≠ 0 := Nat.cast_ne_zero.mpr hDen
  rw [toReal, hSign, if_neg Bool.false_ne_true, one_mul, div_eq_div_iff hScale hDen]
  exact_mod_cast hUnits

theorem Binary64.toReal_zero : toReal 0 = 0 := by
  rw [toReal_eq_div 0 1 (by decide +kernel) (by decide) (by decide +kernel)]
  norm_num

theorem Binary64.toReal_one : toReal 1 = 1 := by
  rw [toReal_eq_div 1 1 (by decide +kernel) (by decide) (by decide +kernel)]
  norm_num

theorem Binary64.toReal_two : toReal 2 = 2 := by
  rw [toReal_eq_div 2 1 (by decide +kernel) (by decide) (by decide +kernel)]
  norm_num

/-- Halves are exact, which the rule for roots needs. -/
theorem Binary64.toReal_half : toReal 0.5 = 1 / 2 := by
  rw [toReal_eq_div 1 2 (by decide +kernel) (by decide) (by decide +kernel)]
  norm_num

/-- The real numbers with their own operations. -/
noncomputable def Arithmetic.real : Arithmetic ℝ where
  number := toReal
  add x y := x + y
  sub x y := x - y
  mul x y := x * y
  div x y := x / y
  neg x := -x
  sqrt := Real.sqrt
  sin := Real.sin
  cos := Real.cos

/-- The valuation with another value for the parameter `p`. -/
def Valuation.set {α : Type} (v : Valuation α) (p : Handle) (x : α) : Valuation α :=
  { v with param := Function.update v.param p x }

theorem Valuation.set_self {α : Type} (v : Valuation α) (p : Handle) :
    v.set p (v.param p) = v := by
  rw [set, Function.update_eq_self]

namespace Expr

/-- Value over the real numbers. -/
noncomputable def real (e : Expr) (v : Valuation ℝ) : ℝ := e.evalWith .real v

/-- Roots are taken of positive numbers only, and no divisor is zero. -/
def Regular (v : Valuation ℝ) : Expr → Prop
  | .param _ | .resolved _ | .number _ => True
  | .binary op left right => left.Regular v ∧ right.Regular v ∧ (op = .div → right.real v ≠ 0)
  | .unary op operand => operand.Regular v ∧ (op = .sqrt → 0 < operand.real v)

theorem real_param_set (v : Valuation ℝ) (p : Handle) (x : ℝ) :
    (Expr.param p).real (v.set p x) = x := by
  show Function.update v.param p x p = x
  rw [Function.update_self]

/-- Values do not change with a parameter that is not mentioned. -/
theorem real_set_of_not_mentions {e : Expr} {p : Handle} (hAbsent : ¬ e.Mentions p)
    (v : Valuation ℝ) (x : ℝ) : e.real (v.set p x) = e.real v := by
  apply evalWith_congr_of_mentions
  · intro h hOccurs
    have hOther : h ≠ p := by
      rintro rfl
      exact hAbsent hOccurs
    exact Function.update_of_ne hOther x v.param
  · exact fun _ _ => rfl

section Rules

variable {p : Handle} {v : Valuation ℝ} {u w du dw : Expr}

/-- The value of `d` is the derivative of `e` in the direction of one parameter. -/
def IsPartial (p : Handle) (v : Valuation ℝ) (e d : Expr) : Prop :=
  HasDerivAt (fun x => e.real (v.set p x)) (d.real v) (v.param p)

/-- What does not mention a parameter has the derivative zero. -/
theorem isPartial_zero {e : Expr} (hAbsent : ¬ e.Mentions p) : IsPartial p v e (.number 0) := by
  have hZero : (Expr.number 0).real v = 0 := toReal_zero
  rw [IsPartial, funext (real_set_of_not_mentions hAbsent v), hZero]
  exact hasDerivAt_const _ _

/-- A parameter has the derivative one in its own direction and zero in all others. -/
theorem isPartial_param (h : Handle) :
    IsPartial p v (.param h) (.number (if h = p then 1 else 0)) := by
  by_cases hSame : h = p
  · subst h
    have hOne : (Expr.number 1).real v = 1 := toReal_one
    rw [if_pos rfl, IsPartial, funext (real_param_set v p), hOne]
    exact hasDerivAt_id _
  · rw [if_neg hSame]
    exact isPartial_zero hSame

/-- At its own value, a parameter leaves the store as it is. -/
theorem real_set_self (e : Expr) : e.real (v.set p (v.param p)) = e.real v := by
  rw [Valuation.set_self]

theorem IsPartial.add (hLeft : IsPartial p v u du) (hRight : IsPartial p v w dw) :
    IsPartial p v (.binary .add u w) (du + dw) :=
  HasDerivAt.fun_add hLeft hRight

theorem IsPartial.sub (hLeft : IsPartial p v u du) (hRight : IsPartial p v w dw) :
    IsPartial p v (.binary .sub u w) (du - dw) :=
  HasDerivAt.fun_sub hLeft hRight

/-- The product rule, with the factors in the order in which it writes them. -/
theorem IsPartial.mul (hLeft : IsPartial p v u du) (hRight : IsPartial p v w dw) :
    IsPartial p v (.binary .mul u w) (u * dw + w * du) := by
  have hProduct := HasDerivAt.fun_mul hLeft hRight
  apply HasDerivAt.congr_deriv hProduct
  rw [real_set_self, real_set_self]
  show du.real v * w.real v + u.real v * dw.real v = u.real v * dw.real v + w.real v * du.real v
  ring

/-- The quotient rule. The real quotient by zero is zero, so the condition is needed. -/
theorem IsPartial.div (hLeft : IsPartial p v u du) (hRight : IsPartial p v w dw)
    (hDivisor : w.real v ≠ 0) :
    IsPartial p v (.binary .div u w) ((du * w - u * dw) / w.square) := by
  rw [← real_set_self w] at hDivisor
  have hQuotient := HasDerivAt.fun_div hLeft hRight hDivisor
  apply HasDerivAt.congr_deriv hQuotient
  rw [real_set_self, real_set_self]
  show _ = (du.real v * w.real v - u.real v * dw.real v) / (w.real v * w.real v)
  rw [sq]

theorem IsPartial.neg (hInner : IsPartial p v u du) : IsPartial p v (.unary .neg u) (-du) :=
  HasDerivAt.fun_neg hInner

/-- The chain rule at a root of a positive number. At zero the root has no derivative. -/
theorem IsPartial.sqrt (hInner : IsPartial p v u du) (hPositive : 0 < u.real v) :
    IsPartial p v (.unary .sqrt u) (.number 0.5 / u.sqrt * du) := by
  have hNonzero : u.real (v.set p (v.param p)) ≠ 0 := by
    rw [real_set_self]
    exact ne_of_gt hPositive
  have hRoot := HasDerivAt.sqrt hInner hNonzero
  apply HasDerivAt.congr_deriv hRoot
  rw [real_set_self]
  show _ = toReal 0.5 / Real.sqrt (u.real v) * du.real v
  rw [toReal_half]
  ring

theorem IsPartial.square (hInner : IsPartial p v u du) :
    IsPartial p v (.unary .square u) (.number 2 * u * du) := by
  have hProduct := HasDerivAt.fun_mul hInner hInner
  apply HasDerivAt.congr_deriv hProduct
  rw [real_set_self]
  show _ = toReal 2 * u.real v * du.real v
  rw [toReal_two]
  ring

theorem IsPartial.sin (hInner : IsPartial p v u du) :
    IsPartial p v (.unary .sin u) (u.cos * du) := by
  have hSine := HasDerivAt.sin hInner
  rw [real_set_self] at hSine
  exact hSine

theorem IsPartial.cos (hInner : IsPartial p v u du) :
    IsPartial p v (.unary .cos u) (-(u.sin * du)) := by
  have hCosine := HasDerivAt.cos hInner
  apply HasDerivAt.congr_deriv hCosine
  rw [real_set_self]
  show -Real.sin (u.real v) * du.real v = -(Real.sin (u.real v) * du.real v)
  ring

/-- Every rule for two operands is a theorem of calculus where no divisor is zero. -/
theorem isPartial_binary (op : BinaryOp) (hLeft : IsPartial p v u du) (hRight : IsPartial p v w dw)
    (hDivisor : op = .div → w.real v ≠ 0) :
    IsPartial p v (.binary op u w) (op.rule u w du dw) := by
  cases op with
  | add => exact hLeft.add hRight
  | sub => exact hLeft.sub hRight
  | mul => exact hLeft.mul hRight
  | div => exact hLeft.div hRight (hDivisor rfl)

/-- Every rule for one operand is a theorem of calculus where roots are taken of positive
numbers. -/
theorem isPartial_unary (op : UnaryOp) (hInner : IsPartial p v u du)
    (hRoot : op = .sqrt → 0 < u.real v) : IsPartial p v (.unary op u) (op.rule u du) := by
  cases op with
  | neg => exact hInner.neg
  | sqrt => exact hInner.sqrt (hRoot rfl)
  | square => exact hInner.square
  | sin => exact hInner.sin
  | cos => exact hInner.cos

/-- The rules give the partial derivative wherever all roots and quotients are regular. The
induction is on the expression, with one rule for each operator. -/
theorem isPartial_derivative {e d : Expr} (hRegular : e.Regular v)
    (hDerivative : e.derivative p = .ok d) : IsPartial p v e d := by
  induction e generalizing d with
  | param h =>
      cases hDerivative
      exact isPartial_param h
  | resolved r => cases hDerivative
  | number x =>
      cases hDerivative
      exact isPartial_zero not_false
  | binary op left right hLeft hRight =>
      obtain ⟨hFirst, hSecond, hDivisor⟩ := hRegular
      obtain ⟨dl, dr, hdl, hdr, rfl⟩ := (derivative_binary_eq_ok_iff op).mp hDerivative
      exact isPartial_binary op (hLeft hFirst hdl) (hRight hSecond hdr) hDivisor
  | unary op operand hOperand =>
      obtain ⟨hInner, hRoot⟩ := hRegular
      obtain ⟨d, hd, rfl⟩ := (derivative_unary_eq_ok_iff op).mp hDerivative
      exact isPartial_unary op (hOperand hInner hd) hRoot

end Rules

/-- An entry of a gradient is the partial derivative, also where the parameter is absent and no
rule is applied. -/
theorem exists_gradientEntry {e : Expr} (hFree : e.Unresolved) (p : Handle) :
    ∃ d, e.gradientEntry p = .ok d ∧ ∀ v, e.Regular v → IsPartial p v e d := by
  obtain ⟨d, hEntry, hPresent, hAbsent⟩ := exists_gradientEntry_of_unresolved hFree p
  refine ⟨d, hEntry, fun v hRegular => ?_⟩
  by_cases hMentions : e.Mentions p
  · exact isPartial_derivative hRegular (hPresent hMentions)
  · rw [hAbsent hMentions]
    exact isPartial_zero hMentions

end Expr

/-- The Jacobian is the matrix of partial derivatives. For expressions without resolved parameters
it always exists, with a row for each expression and an entry for each parameter. Where an
expression is regular, each entry of its row has the value of the derivative, at the parameter's
own value, of the expression as a function of that parameter. -/
theorem jacobian_hasDerivAt (es : List Expr) (ps : List Handle)
    (hFree : ∀ e ∈ es, e.Unresolved) :
    ∃ m, jacobian es ps = .ok m ∧ m.length = es.length ∧
      ∀ (i : Nat) (e : Expr), es[i]? = some e → ∃ row, m[i]? = some row ∧ row.length = ps.length ∧
        ∀ (j : Nat) (p : Handle), ps[j]? = some p → ∃ entry, row[j]? = some entry ∧
          ∀ v : Valuation ℝ, e.Regular v →
            HasDerivAt (fun x => e.real (v.set p x)) (entry.real v) (v.param p) := by
  apply exists_mapM_eq_ok
  intro e hMem
  exact exists_mapM_eq_ok ps fun p _ => Expr.exists_gradientEntry (hFree e hMem) p

/-- The root has the derivative that its only entry has for a value, here at four. -/
theorem jacobian_root_hasDerivAt :
    ∃ entry : Expr, jacobian [.unary .sqrt (.param ⟨0⟩)] [⟨0⟩] = .ok [[entry]] ∧
      HasDerivAt Real.sqrt (entry.real ⟨fun _ => 4, fun _ => 0⟩) 4 := by
  have hFree : ∀ e ∈ [Expr.unary .sqrt (.param ⟨0⟩)], e.Unresolved := by
    intro e hMem
    rw [List.mem_singleton.mp hMem]
    trivial
  obtain ⟨m, hm, hHeight, hRows⟩ := jacobian_hasDerivAt _ [⟨0⟩] hFree
  obtain ⟨row, hRow, hWidth, hEntries⟩ := hRows 0 _ rfl
  obtain ⟨entry, hEntry, hPartial⟩ := hEntries 0 _ rfl
  obtain ⟨r, rfl⟩ := List.length_eq_one_iff.mp hHeight
  obtain rfl : r = row := by simpa using hRow
  obtain ⟨d, rfl⟩ := List.length_eq_one_iff.mp hWidth
  obtain rfl : d = entry := by simpa using hEntry
  have hFour : (0 : ℝ) < (fun _ => 4 : Handle → ℝ) ⟨0⟩ := by norm_num
  have hRoot := hPartial ⟨fun _ => 4, fun _ => 0⟩ ⟨trivial, fun _ => hFour⟩
  have hFunction : (fun x => (Expr.unary .sqrt (.param ⟨0⟩)).real
      (Valuation.set ⟨fun _ => 4, fun _ => 0⟩ ⟨0⟩ x)) = Real.sqrt := by
    funext x
    exact congrArg Real.sqrt (Expr.real_param_set _ ⟨0⟩ x)
  rw [hFunction] at hRoot
  exact ⟨d, hm, hRoot⟩

end Formula
