import Formula.Proofs.DerivativeRules
import Formula.Proofs.Traversal
import Formula.System.Jacobian

/-! When derivatives, gradients and Jacobians exist, and what is reported when they do not. It is
the leftmost resolved parameter that is reported, whatever the parameter of the derivative is, so
the first expression with a resolved parameter decides for a whole matrix. -/
namespace Formula

namespace Expr

variable {e u w : Expr} {p : Handle}

/-- Records of the resolved parameters of an expression, from left to right. -/
def records : Expr → List Record
  | .resolved r => [r]
  | .param _ | .number _ => []
  | .binary _ left right => left.records ++ right.records
  | .unary _ operand => operand.records

theorem records_eq_nil_iff (e : Expr) : e.records = [] ↔ e.Unresolved := by
  induction e with
  | param h => simp [records, Unresolved]
  | resolved r => simp [records, Unresolved]
  | number x => simp [records, Unresolved]
  | binary op left right hLeft hRight =>
      rw [records, List.append_eq_nil_iff, hLeft, hRight, Unresolved]
  | unary op operand hOperand => exact hOperand

/-- The left operand is differentiated first, so its failure is the answer. -/
theorem derivative_binary_of_error {error : DerivativeError} (op : BinaryOp)
    (hLeft : u.derivative p = .error error) :
    (Expr.binary op u w).derivative p = .error error := by
  rw [derivative, hLeft]
  rfl

/-- The left operand is differentiated first. -/
theorem derivative_binary_of_ok_of_error {error : DerivativeError} {du : Expr} (op : BinaryOp)
    (hLeft : u.derivative p = .ok du) (hRight : w.derivative p = .error error) :
    (Expr.binary op u w).derivative p = .error error := by
  rw [derivative, hLeft, hRight]
  rfl

theorem derivative_unary_of_error {error : DerivativeError} (op : UnaryOp)
    (hOperand : u.derivative p = .error error) :
    (Expr.unary op u).derivative p = .error error := by
  rw [derivative, hOperand]
  rfl

/-- The leftmost resolved parameter is met before any other. A left operand without one has a
derivative, so the right operand is reached. -/
theorem derivative_of_head? {r : Record} (hFirst : e.records.head? = some r) (p : Handle) :
    e.derivative p = .error (.resolvedParameter r.handle) := by
  induction e with
  | param h => cases hFirst
  | resolved s =>
      cases hFirst
      rfl
  | number x => cases hFirst
  | binary op left right hLeft hRight =>
      rw [records, List.head?_append] at hFirst
      cases hRecords : left.records with
      | nil =>
          rw [hRecords] at hFirst
          obtain ⟨d, hDerivative⟩ := exists_derivative ((records_eq_nil_iff left).mp hRecords) p
          exact derivative_binary_of_ok_of_error op hDerivative (hRight hFirst)
      | cons s others =>
          rw [hRecords] at hFirst
          refine derivative_binary_of_error op (hLeft ?_)
          rw [hRecords]
          exact hFirst
  | unary op operand hOperand => exact derivative_unary_of_error op (hOperand hFirst)

/-- An expression has no derivative exactly when it has a resolved parameter. -/
theorem derivative_eq_error_iff (e : Expr) (p : Handle) (error : DerivativeError) :
    e.derivative p = .error error ↔
      ∃ r, e.records.head? = some r ∧ error = .resolvedParameter r.handle := by
  cases hFirst : e.records.head? with
  | none =>
      have hFree := (records_eq_nil_iff e).mp (List.head?_eq_none_iff.mp hFirst)
      obtain ⟨d, hDerivative⟩ := exists_derivative hFree p
      simp [hDerivative]
  | some r => simp [derivative_of_head? hFirst p, eq_comm]

theorem gradientEntry_of_not_unresolved (hHeld : ¬ e.Unresolved) (p : Handle) :
    e.gradientEntry p = e.derivative p := by
  rw [gradientEntry, (hasResolved_iff e).mpr hHeld, Bool.or_true]
  rfl

/-- Without resolved parameters there is an entry for every parameter, and only those that are
mentioned are differentiated for. -/
theorem exists_gradientEntry_of_unresolved (hFree : e.Unresolved) (p : Handle) :
    ∃ entry, e.gradientEntry p = .ok entry ∧
      (e.Mentions p → e.derivative p = .ok entry) ∧ (¬ e.Mentions p → entry = .number 0) := by
  have hPlain : e.hasResolved = false := by
    rw [← Bool.not_eq_true, hasResolved_iff]
    exact not_not.mpr hFree
  rw [gradientEntry, hPlain, Bool.or_false]
  by_cases hMentions : e.Mentions p
  · obtain ⟨d, hDerivative⟩ := exists_derivative hFree p
    rw [if_pos ((dependsOn_iff e p).mpr hMentions)]
    exact ⟨d, hDerivative, fun _ => hDerivative, fun hAbsent => absurd hMentions hAbsent⟩
  · rw [if_neg (fun h => hMentions ((dependsOn_iff e p).mp h))]
    exact ⟨_, rfl, fun hPresent => absurd hPresent hMentions, fun _ => rfl⟩

/-- The guard of an entry hides no failure of the derivative. -/
theorem gradientEntry_eq_error_iff (e : Expr) (p : Handle) (error : DerivativeError) :
    e.gradientEntry p = .error error ↔
      ∃ r, e.records.head? = some r ∧ error = .resolvedParameter r.handle := by
  by_cases hFree : e.Unresolved
  · obtain ⟨entry, hEntry, -⟩ := exists_gradientEntry_of_unresolved hFree p
    simp [hEntry, (records_eq_nil_iff e).mpr hFree]
  · rw [gradientEntry_of_not_unresolved hFree, derivative_eq_error_iff]

end Expr

open Formula.Expr

/-- A gradient has an entry for every handle, in their order: the derivative where the parameter is
mentioned, and zero where it is not. -/
theorem exists_gradient {e : Expr} (ps : List Handle) (hExists : ps = [] ∨ e.Unresolved) :
    ∃ row, gradient e ps = .ok row ∧ row.length = ps.length ∧
      ∀ (j : Nat) (p : Handle), ps[j]? = some p → ∃ entry, row[j]? = some entry ∧
        (e.Mentions p → e.derivative p = .ok entry) ∧ (¬ e.Mentions p → entry = .number 0) := by
  rcases hExists with rfl | hFree
  · exact ⟨[], rfl, rfl, by simp⟩
  · exact exists_mapM_eq_ok ps fun p _ => exists_gradientEntry_of_unresolved hFree p

/-- No parameter makes up for a resolved one, and for no parameters nothing is differentiated. -/
theorem gradient_eq_error_iff (e : Expr) (ps : List Handle) (error : DerivativeError) :
    gradient e ps = .error error ↔
      ps ≠ [] ∧ ∃ r, e.records.head? = some r ∧ error = .resolvedParameter r.handle := by
  rw [gradient, mapM_eq_error_iff]
  constructor
  · intro hFailed
    obtain ⟨before, p, after, hSplit, -, hEntry⟩ := hFailed
    have hSome : ps ≠ [] := by simp [hSplit]
    exact ⟨hSome, (gradientEntry_eq_error_iff e p error).mp hEntry⟩
  · intro hFirst
    obtain ⟨p, others, hCons⟩ := List.exists_cons_of_ne_nil hFirst.1
    have hEntry := (gradientEntry_eq_error_iff e p error).mpr hFirst.2
    exact ⟨[], p, others, hCons, by simp, hEntry⟩

/-- Where there are parameters, only expressions without resolved ones have a gradient. -/
theorem records_eq_nil_of_gradient {e : Expr} {ps : List Handle} {row : List Expr}
    (hSome : ps ≠ []) (hRow : gradient e ps = .ok row) : e.records = [] := by
  cases hRecords : e.records with
  | nil => rfl
  | cons r others =>
      have hFirst : e.records.head? = some r := by rw [hRecords, List.head?_cons]
      have hFailed := (gradient_eq_error_iff e ps _).mpr ⟨hSome, r, hFirst, rfl⟩
      rw [hRow] at hFailed
      cases hFailed

/-- The first expression with a resolved parameter decides. -/
theorem jacobian_eq_error_iff (es : List Expr) (ps : List Handle) (error : DerivativeError) :
    jacobian es ps = .error error ↔
      ps ≠ [] ∧ ∃ before e after r, es = before ++ e :: after ∧ (∀ b ∈ before, b.records = []) ∧
        e.records.head? = some r ∧ error = .resolvedParameter r.handle := by
  rw [jacobian, mapM_eq_error_iff]
  constructor
  · intro hFailed
    obtain ⟨before, e, after, hSplit, hBefore, hRow⟩ := hFailed
    obtain ⟨hSome, r, hFirst, hError⟩ := (gradient_eq_error_iff e ps error).mp hRow
    refine ⟨hSome, before, e, after, r, hSplit, ?_, hFirst, hError⟩
    intro b hMem
    obtain ⟨row, hOther⟩ := hBefore b hMem
    exact records_eq_nil_of_gradient hSome hOther
  · intro hFirst
    obtain ⟨hSome, before, e, after, r, hSplit, hBefore, hRecord, hError⟩ := hFirst
    have hRow := (gradient_eq_error_iff e ps error).mpr ⟨hSome, r, hRecord, hError⟩
    refine ⟨before, e, after, hSplit, ?_, hRow⟩
    intro b hMem
    have hFree := (records_eq_nil_iff b).mp (hBefore b hMem)
    obtain ⟨row, hOther, -⟩ := exists_gradient ps (.inr hFree)
    exact ⟨row, hOther⟩

/-- When differentiation fails. A derivative fails exactly for an expression with a resolved
parameter, and reports the leftmost one. A Jacobian fails exactly when there is a parameter to
differentiate for and some expression has a resolved one, whether or not any of the parameters
occurs; it reports the leftmost of the first such expression. In all other cases it has a row for
each expression and an entry for each parameter: the derivative where the parameter occurs in the
expression, and zero where it does not. -/
theorem differentiation_fails_iff_resolved :
    (∀ e p error, Expr.derivative p e = .error error ↔
      ∃ r, e.records.head? = some r ∧ error = .resolvedParameter r.handle) ∧
    ∀ es ps,
      (∀ error, jacobian es ps = .error error ↔
        ps ≠ [] ∧ ∃ before e after r, es = before ++ e :: after ∧
          (∀ b ∈ before, b.records = []) ∧ e.records.head? = some r ∧
          error = .resolvedParameter r.handle) ∧
      ((ps = [] ∨ ∀ e ∈ es, e.records = []) →
        ∃ m, jacobian es ps = .ok m ∧ m.length = es.length ∧
          ∀ (i : Nat) (e : Expr), es[i]? = some e →
            ∃ row, m[i]? = some row ∧ row.length = ps.length ∧
              ∀ (j : Nat) (p : Handle), ps[j]? = some p → ∃ entry, row[j]? = some entry ∧
                (e.Mentions p → e.derivative p = .ok entry) ∧
                (¬ e.Mentions p → entry = .number 0)) := by
  refine ⟨derivative_eq_error_iff, fun es ps => ⟨jacobian_eq_error_iff es ps, ?_⟩⟩
  intro hExists
  apply exists_mapM_eq_ok
  intro e hMem
  apply exists_gradient
  exact hExists.imp_right fun hFree => (records_eq_nil_iff e).mp (hFree e hMem)

/-- The parameter of the failing matrix occurs nowhere, and of the two resolved parameters the left
one is reported. Without the expression that holds them there is a matrix. -/
theorem jacobian_fails_at_left_factor :
    let plain : Expr := .binary .add (.param ⟨1⟩) (.number 2)
    let held : Expr := .binary .mul (.resolved ⟨⟨7⟩, 0⟩) (.unary .sin (.resolved ⟨⟨8⟩, 1⟩))
    jacobian [plain, held, .resolved ⟨⟨6⟩, 2⟩] [⟨9⟩] = .error (.resolvedParameter ⟨7⟩) ∧
      (∀ e ∈ [plain], e.records = []) ∧
      ∃ m row, jacobian [plain] [⟨1⟩, ⟨9⟩] = .ok m ∧ m[0]? = some row ∧
        row[1]? = some (.number 0) := by
  intro plain held
  have hPlain : ∀ e ∈ [plain], e.records = [] := by simp [plain, Expr.records]
  have hFails := (differentiation_fails_iff_resolved.2 [plain, held, .resolved ⟨⟨6⟩, 2⟩] [⟨9⟩]).1
  have hExists := (differentiation_fails_iff_resolved.2 [plain] [⟨1⟩, ⟨9⟩]).2 (.inr hPlain)
  obtain ⟨m, hMatrix, -, hRows⟩ := hExists
  obtain ⟨row, hRow, -, hEntries⟩ := hRows 0 plain rfl
  obtain ⟨entry, hEntry, -, hAbsent⟩ := hEntries 1 ⟨9⟩ rfl
  have hZero : entry = .number 0 := hAbsent (by simp [plain, Mentions])
  refine ⟨?_, hPlain, m, row, hMatrix, hRow, hZero ▸ hEntry⟩
  exact (hFails _).mpr ⟨by simp, [plain], held, [_], _, rfl, hPlain, rfl, rfl⟩

end Formula
