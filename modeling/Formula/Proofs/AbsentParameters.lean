import Formula.Expr.Evaluation
import Formula.Parameter.Operation
import Formula.Proofs.GradientEntries
import Formula.Proofs.SignedZero

/-! Derivatives with respect to parameters that do not occur. In exact arithmetic they are zero. The
rules are applied to doubles all the same, where a factor beside a zero can be infinite or no number
at all; then the value is no number, but it is never a number other than zero. -/
namespace Formula

universe u

/-- A class of values that has zero in it, and that products with any other value and quotients by
any other value do not leave. -/
structure Arithmetic.Absorbs {α : Type u} (A : Arithmetic α) (Z : α → Prop) : Prop where
  zero : Z (A.number 0)
  add {x y : α} : Z x → Z y → Z (A.add x y)
  sub {x y : α} : Z x → Z y → Z (A.sub x y)
  neg {x : α} : Z x → Z (A.neg x)
  mul_left {x : α} (y : α) : Z x → Z (A.mul x y)
  mul_right (x : α) {y : α} : Z y → Z (A.mul x y)
  div {x : α} (y : α) : Z x → Z (A.div x y)

/-- Doubles keep zeros together, up to their signs and up to what is no number. -/
theorem Arithmetic.binary64_absorbs : binary64.Absorbs Binary64.IsZeroOrNaN where
  zero := .inl rfl
  add := .add
  sub := .sub
  neg := .neg
  mul_left := .mul_left
  mul_right x _ hZero := hZero.mul_right x
  div := .div

namespace Expr

section Rules

variable {α : Type u} {A : Arithmetic α} {Z : α → Prop} {v : Valuation α}
  {u w du dw e d : Expr} {p : Handle}

/-- Each term of a rule has the derivative of an operand for a factor. -/
theorem evalWith_binary_rule (hA : A.Absorbs Z) (op : BinaryOp) (hLeft : Z (du.evalWith A v))
    (hRight : Z (dw.evalWith A v)) : Z ((op.rule u w du dw).evalWith A v) := by
  cases op with
  | add => exact hA.add hLeft hRight
  | sub => exact hA.sub hLeft hRight
  | mul => exact hA.add (hA.mul_right _ hRight) (hA.mul_right _ hLeft)
  | div => exact hA.div _ (hA.sub (hA.mul_left _ hLeft) (hA.mul_right _ hRight))

theorem evalWith_unary_rule (hA : A.Absorbs Z) (op : UnaryOp) (hOperand : Z (du.evalWith A v)) :
    Z ((op.rule u du).evalWith A v) := by
  cases op with
  | neg => exact hA.neg hOperand
  | sqrt => exact hA.mul_right _ hOperand
  | square => exact hA.mul_right _ hOperand
  | sin => exact hA.mul_right _ hOperand
  | cos => exact hA.neg (hA.mul_right _ hOperand)

/-- The leaves have the derivative zero in a parameter that is not mentioned, and no rule leads out
of the class. -/
theorem evalWith_derivative_of_not_mentions (hA : A.Absorbs Z) (hAbsent : ¬ e.Mentions p)
    (hDerivative : e.derivative p = .ok d) : Z (d.evalWith A v) := by
  induction e generalizing d with
  | param h =>
      have hOther : ¬ h = p := hAbsent
      cases hDerivative
      rw [if_neg hOther]
      exact hA.zero
  | resolved r => cases hDerivative
  | number x =>
      cases hDerivative
      exact hA.zero
  | binary op left right hLeft hRight =>
      obtain ⟨hFirst, hSecond⟩ := not_or.mp hAbsent
      obtain ⟨dl, dr, hdl, hdr, rfl⟩ := (derivative_binary_eq_ok_iff op).mp hDerivative
      exact evalWith_binary_rule hA op (hLeft hFirst hdl) (hRight hSecond hdr)
  | unary op operand hOperand =>
      obtain ⟨d, hd, rfl⟩ := (derivative_unary_eq_ok_iff op).mp hDerivative
      exact evalWith_unary_rule hA op (hOperand hAbsent hd)

end Rules

/-- The entry for an absent parameter is zero in every gradient. -/
theorem getElem?_gradient_of_not_mentions {e : Expr} {ps : List Handle} {p : Handle}
    {row : List Expr} {j : Nat} (hFree : e.Unresolved) (hAbsent : ¬ e.Mentions p)
    (hRow : gradient e ps = .ok row) (hPlace : ps[j]? = some p) :
    row[j]? = some (.number 0) := by
  obtain ⟨entry, hEntry, hValue⟩ := getElem?_of_mapM_eq_ok hRow hPlace
  obtain ⟨other, hOther, -, hZero⟩ := exists_gradientEntry_of_unresolved hFree p
  rw [hOther, Except.ok.injEq] at hValue
  rw [hEntry, ← hValue, hZero hAbsent]

end Expr

open Formula.Expr

/-- What stands in a gradient for a parameter that an expression does not depend on. Without a
resolved parameter the derivative exists, and at every store it is a zero of either sign or no
number. The entry of every gradient, and of every Jacobian that there is, is zero instead, and that
is equal to the value of the derivative wherever this is a number. -/
theorem derivative_of_not_dependsOn {e : Expr} {p : Handle} (hFree : e.Unresolved)
    (hAbsent : e.dependsOn p = false) :
    ∃ d, e.derivative p = .ok d ∧
      (∀ s g, (d.eval s g = 0 ∨ d.eval s g = -0 ∨ (d.eval s g).isNaN = true) ∧
        ((d.eval s g).isNaN = false → (d.eval s g == (Expr.number 0).eval s g) = true)) ∧
      (∀ ps, ∃ row, gradient e ps = .ok row ∧
        ∀ j : Nat, ps[j]? = some p → row[j]? = some (.number 0)) ∧
      ∀ es ps m, jacobian es ps = .ok m → ∀ i j : Nat, es[i]? = some e → ps[j]? = some p →
        ∃ row, m[i]? = some row ∧ row[j]? = some (.number 0) := by
  have hMentions : ¬ e.Mentions p := by
    rw [← dependsOn_iff, hAbsent]
    exact Bool.false_ne_true
  obtain ⟨d, hDerivative⟩ := exists_derivative hFree p
  refine ⟨d, hDerivative, ?_, ?_, ?_⟩
  · intro s g
    have hZero : Binary64.IsZeroOrNaN (d.eval s g) :=
      evalWith_derivative_of_not_mentions Arithmetic.binary64_absorbs hMentions hDerivative
    exact ⟨hZero, hZero.beq_zero⟩
  · intro ps
    obtain ⟨row, hRow, -⟩ := exists_gradient ps (.inr hFree)
    exact ⟨row, hRow, fun j => getElem?_gradient_of_not_mentions hFree hMentions hRow⟩
  · intro es ps m hMatrix i j hExpr hParam
    obtain ⟨row, hPlace, hRow⟩ := getElem?_of_mapM_eq_ok hMatrix hExpr
    exact ⟨row, hPlace, getElem?_gradient_of_not_mentions hFree hMentions hRow hParam⟩

/-- A quotient does not depend on a third parameter. Its derivative is the negative zero at one
store and no number at another one, where the divisor is zero. -/
theorem derivative_of_quotient_not_dependsOn :
    let e : Expr := .binary .div (.param ⟨1⟩) (.param ⟨2⟩)
    let g := Registry.empty.run [.insert "t" ⟨1⟩ 1, .insert "t" ⟨2⟩ (-2)]
    let g' := g.run [.set "t" ⟨2⟩ 0]
    e.Unresolved ∧ e.dependsOn ⟨3⟩ = false ∧
      ∃ d, e.derivative ⟨3⟩ = .ok d ∧ d.eval (.ofTable "t") g = -0 ∧
        (d.eval (.ofTable "t") g == (Expr.number 0).eval (.ofTable "t") g) = true ∧
        (d.eval (.ofTable "t") g').isNaN = true := by
  intro e g g'
  have hFree : e.Unresolved := ⟨trivial, trivial⟩
  have hAbsent : e.dependsOn ⟨3⟩ = false := by decide
  obtain ⟨d, hDerivative, hValue, -, -⟩ := derivative_of_not_dependsOn hFree hAbsent
  obtain ⟨-, hEqual⟩ := hValue (.ofTable "t") g
  have hRule : e.derivative ⟨3⟩ = .ok (BinaryOp.div.rule (.param ⟨1⟩) (.param ⟨2⟩)
      (.number 0) (.number 0)) := rfl
  obtain rfl := Except.ok.inj (hRule.symm.trans hDerivative)
  exact ⟨hFree, hAbsent, _, hRule, by decide +kernel, hEqual (by decide +kernel), by decide +kernel⟩

end Formula
