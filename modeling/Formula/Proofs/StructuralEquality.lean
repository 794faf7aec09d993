import Formula.Proofs.RepeatedDerivatives
import Formula.Proofs.ResolvedLeaves
import Formula.Proofs.Rereading

/-! Equality of structure. It is not identity: zeros of both signs are equal, no number differs from
itself, and resolved parameters are compared by their handles. What asks no more of a leaf than the
comparison does cannot tell equal expressions apart. Evaluation asks more: the sign of a zero, and
the values of records. -/
namespace Formula

/-- Equal doubles are the same double, zeros apart. -/
theorem Binary64.eq_of_beq {x y : Float} (hSame : (x == y) = true) (hZero : (x == 0) = false) :
    x = y := by
  obtain ⟨-, -, rfl | ⟨rfl, -⟩ | ⟨rfl, -⟩⟩ := Float.beq_iff_ne_nan_and_eq.mp hSame
  · rfl
  · cases hZero
  · cases hZero

namespace Expr

universe u

variable {e f d u v w z du dv dw dz : Expr}

/-- Equality of structure as a relation: the same operators in the same places, and at the leaves
the same names, records of the same handles and equal doubles. -/
inductive Alike : Expr → Expr → Prop where
  | param (h : Handle) : Alike (.param h) (.param h)
  | resolved {r s : Record} (hHandle : r.handle = s.handle) : Alike (.resolved r) (.resolved s)
  | number {x y : Float} (hSame : (x == y) = true) : Alike (.number x) (.number y)
  | binary (op : BinaryOp) {u v w z : Expr} (hLeft : Alike u v) (hRight : Alike w z) :
      Alike (.binary op u w) (.binary op v z)
  | unary (op : UnaryOp) {u v : Expr} (hOperand : Alike u v) : Alike (.unary op u) (.unary op v)

/-- The comparison decides the relation. -/
theorem beq_iff_alike : (e == f) = true ↔ Alike e f := by
  constructor
  · intro hSame
    change e.beq f = true at hSame
    induction e, f using Expr.beq.induct with
    | case1 h k =>
        cases of_decide_eq_true hSame
        exact .param h
    | case2 r s => exact .resolved (of_decide_eq_true hSame)
    | case3 x y => exact .number hSame
    | case4 o a b p c d ihLeft ihRight =>
        rw [beq, Bool.and_eq_true, Bool.and_eq_true, decide_eq_true_iff] at hSame
        obtain ⟨⟨rfl, hLeft⟩, hRight⟩ := hSame
        exact .binary o (ihLeft hLeft) (ihRight hRight)
    | case5 o a p b ih =>
        rw [beq, Bool.and_eq_true, decide_eq_true_iff] at hSame
        obtain ⟨rfl, hOperand⟩ := hSame
        exact .unary o (ih hOperand)
    | case6 e f hParam hResolved hNumber hBinary hUnary =>
        rw [beq.eq_6 e f hParam hResolved hNumber hBinary hUnary] at hSame
        cases hSame
  · intro hAlike
    change e.beq f = true
    induction hAlike with
    | param h => exact decide_eq_true rfl
    | resolved hHandle => exact decide_eq_true hHandle
    | number hSame => exact hSame
    | binary op hLeft hRight ihLeft ihRight =>
        simp only [beq, decide_true, ihLeft, ihRight, Bool.and_self]
    | unary op hOperand ih => simp only [beq, decide_true, ih, Bool.and_self]

namespace Alike

theorem symm (hAlike : Alike e f) : Alike f e := by
  induction hAlike with
  | param h => exact .param h
  | resolved hHandle => exact .resolved hHandle.symm
  | number hSame => exact .number (BEq.symm hSame)
  | binary op hLeft hRight ihLeft ihRight => exact .binary op ihLeft ihRight
  | unary op hOperand ih => exact .unary op ih

/-- Zeros of both signs are equal to one another, so comparing doubles is transitive too. -/
theorem trans (hFirst : Alike e f) (hSecond : Alike f d) : Alike e d := by
  induction hFirst generalizing d with
  | param h => exact hSecond
  | resolved hHandle =>
      cases hSecond with
      | resolved hNext => exact .resolved (hHandle.trans hNext)
  | number hSame =>
      cases hSecond with
      | number hNext => exact .number (BEq.trans hSame hNext)
  | binary op hLeft hRight ihLeft ihRight =>
      cases hSecond with
      | binary _ hNextLeft hNextRight => exact .binary op (ihLeft hNextLeft) (ihRight hNextRight)
  | unary op hOperand ih =>
      cases hSecond with
      | unary _ hNext => exact .unary op (ih hNext)

/-- An expression is unlike itself for its constants that are no numbers, and for nothing else. -/
theorem self_iff (e : Expr) : Alike e e ↔ ∀ x ∈ e.constants, x.isNaN = false := by
  induction e with
  | param h => exact iff_of_true (.param h) (by simp [constants])
  | resolved r => exact iff_of_true (.resolved rfl) (by simp [constants])
  | number x =>
      rw [constants, List.forall_mem_singleton, Float.isNaN_eq_decide_eq_nan,
        decide_eq_false_iff_not, ← ne_eq, ← Float.beq_self_iff]
      constructor
      · rintro (_ | _ | hSame)
        exact hSame
      · exact .number
  | binary op left right hLeft hRight =>
      rw [constants, List.forall_mem_append, ← hLeft, ← hRight]
      constructor
      · rintro (_ | _ | _ | ⟨_, hl, hr⟩)
        exact ⟨hl, hr⟩
      · rintro ⟨hl, hr⟩
        exact .binary op hl hr
  | unary op operand hOperand =>
      rw [constants, ← hOperand]
      constructor
      · rintro (_ | _ | _ | _ | ⟨_, hInner⟩)
        exact hInner
      · exact .unary op

theorem nodeCount_eq (hAlike : Alike e f) : e.nodeCount = f.nodeCount := by
  induction hAlike with
  | param h | resolved hHandle | number hSame => rfl
  | binary op hLeft hRight ihLeft ihRight => rw [nodeCount, nodeCount, ihLeft, ihRight]
  | unary op hOperand ih => rw [nodeCount, nodeCount, ih]

theorem maxDepth_eq (hAlike : Alike e f) : e.maxDepth = f.maxDepth := by
  induction hAlike with
  | param h | resolved hHandle | number hSame => rfl
  | binary op hLeft hRight ihLeft ihRight => rw [maxDepth, maxDepth, ihLeft, ihRight]
  | unary op hOperand ih => rw [maxDepth, maxDepth, ih]

theorem mentions_iff (hAlike : Alike e f) (p : Handle) : e.Mentions p ↔ f.Mentions p := by
  induction hAlike with
  | param h | number hSame => rfl
  | resolved hHandle => rw [Mentions, Mentions, hHandle]
  | binary op hLeft hRight ihLeft ihRight => rw [Mentions, Mentions, ihLeft, ihRight]
  | unary op hOperand ih => exact ih

theorem unresolved_iff (hAlike : Alike e f) : e.Unresolved ↔ f.Unresolved := by
  induction hAlike with
  | param h | resolved hHandle | number hSame => rfl
  | binary op hLeft hRight ihLeft ihRight => rw [Unresolved, Unresolved, ihLeft, ihRight]
  | unary op hOperand ih => exact ih

/-- The rules put together what they are given. Their own numbers are like themselves. -/
theorem binary_rule (op : BinaryOp) (hLeft : Alike u v) (hRight : Alike w z)
    (hdu : Alike du dv) (hdw : Alike dw dz) : Alike (op.rule u w du dw) (op.rule v z dv dz) := by
  cases op with
  | add => exact .binary _ hdu hdw
  | sub => exact .binary _ hdu hdw
  | mul => exact .binary _ (.binary _ hLeft hdw) (.binary _ hRight hdu)
  | div =>
      exact .binary _ (.binary _ (.binary _ hdu hRight) (.binary _ hLeft hdw)) (.unary _ hRight)

theorem unary_rule (op : UnaryOp) (hOperand : Alike u v) (hdu : Alike du dv) :
    Alike (op.rule u du) (op.rule v dv) := by
  cases op with
  | neg => exact .unary _ hdu
  | sqrt => exact .binary _ (.binary _ (.number (by decide)) (.unary _ hOperand)) hdu
  | square => exact .binary _ (.binary _ (.number (by decide)) hOperand) hdu
  | sin => exact .binary _ (.unary _ hOperand) hdu
  | cos => exact .unary _ (.binary _ (.unary _ hOperand) hdu)

end Alike

/-- Outcomes of differentiation that agree: the same failure, or derivatives of equal structure. -/
inductive SameOutcome :
    Except DerivativeError Expr → Except DerivativeError Expr → Prop where
  | error (error : DerivativeError) : SameOutcome (.error error) (.error error)
  | ok {d d' : Expr} (hSame : (d == d') = true) : SameOutcome (.ok d) (.ok d')

/-- Differentiation fails for both with one error, or answers two derivatives that are alike. -/
theorem SameOutcome.cases {a b : Except DerivativeError Expr} (hSame : SameOutcome a b) :
    (∃ error, a = .error error ∧ b = .error error) ∨
      ∃ d d', a = .ok d ∧ b = .ok d' ∧ Alike d d' := by
  cases hSame with
  | error error => exact .inl ⟨error, rfl, rfl⟩
  | ok hSame => exact .inr ⟨_, _, rfl, rfl, beq_iff_alike.mp hSame⟩

namespace Alike

/-- The left operand is differentiated first, so where both operands of both expressions fail it is
for the records on the left. -/
theorem sameOutcome_derivative (hAlike : Alike e f) (p : Handle) :
    SameOutcome (e.derivative p) (f.derivative p) := by
  induction hAlike with
  | param h =>
      rw [derivative]
      split <;> exact .ok (by decide)
  | resolved hHandle =>
      rw [derivative, derivative, hHandle]
      exact .error _
  | number hSame => exact .ok (by decide)
  | binary op hLeft hRight ihLeft ihRight =>
      obtain ⟨error, hu, hv⟩ | ⟨du, dv, hu, hv, hd⟩ := ihLeft.cases
      · rw [derivative_binary_of_error op hu, derivative_binary_of_error op hv]
        exact .error error
      obtain ⟨error, hw, hz⟩ | ⟨dw, dz, hw, hz, hd'⟩ := ihRight.cases
      · rw [derivative_binary_of_ok_of_error op hu hw, derivative_binary_of_ok_of_error op hv hz]
        exact .error error
      · rw [derivative_binary_eq_ok op hu hw, derivative_binary_eq_ok op hv hz]
        exact .ok (beq_iff_alike.mpr (binary_rule op hLeft hRight hd hd'))
  | unary op hOperand ih =>
      obtain ⟨error, hu, hv⟩ | ⟨du, dv, hu, hv, hd⟩ := ih.cases
      · rw [derivative_unary_of_error op hu, derivative_unary_of_error op hv]
        exact .error error
      · rw [derivative_unary_eq_ok op hu, derivative_unary_eq_ok op hv]
        exact .ok (beq_iff_alike.mpr (unary_rule op hOperand hd))

/-- Likeness is kept by derivatives of every order. -/
theorem sameOutcome_derivatives (hAlike : Alike e f) (ps : List Handle) :
    SameOutcome (e.derivatives ps) (f.derivatives ps) := by
  induction ps generalizing e f with
  | nil => exact .ok (beq_iff_alike.mpr hAlike)
  | cons p ps ih =>
      simp only [derivatives, List.foldlM_cons]
      obtain ⟨error, he, hf⟩ | ⟨d, d', he, hf, hd⟩ := (hAlike.sameOutcome_derivative p).cases
      · rw [he, hf]
        exact .error error
      · rw [he, hf]
        exact ih hd

/-- The answers for a name decide what it becomes by their handles. -/
theorem elim_answer (h : Handle) {a b : Option Record}
    (hAnswer : a.map (·.handle) = b.map (·.handle)) :
    Alike (a.elim (.param h) .resolved) (b.elim (.param h) .resolved) := by
  cases a with
  | none =>
      rw [Option.map_eq_none_iff.mp hAnswer.symm]
      exact .param h
  | some r =>
      obtain ⟨s, rfl, hHandle⟩ := Option.map_eq_some_iff.mp hAnswer.symm
      exact .resolved hHandle.symm

/-- A store at two moments. The registries that it has come to are related by some `R`; it is enough
that answers from related registries agree in handles and lead to related registries again. -/
theorem resolve {s : Store} {R : Registry → Registry → Prop}
    (hStep : ∀ h g g', R g g' →
      (s.resolve h g).1.map (·.handle) = (s.resolve h g').1.map (·.handle) ∧
        R (s.resolve h g).2 (s.resolve h g').2)
    (hAlike : Alike e f) {g g' : Registry} (hBefore : R g g') :
    Alike (e.resolve s g).1 (f.resolve s g').1 ∧ R (e.resolve s g).2 (f.resolve s g').2 := by
  induction hAlike generalizing g g' with
  | param h =>
      obtain ⟨hAnswer, hAfter⟩ := hStep h g g' hBefore
      rw [resolve_param, resolve_param]
      exact ⟨elim_answer h hAnswer, hAfter⟩
  | resolved hHandle => exact ⟨.resolved hHandle, hBefore⟩
  | number hSame => exact ⟨.number hSame, hBefore⟩
  | binary op hLeft hRight ihLeft ihRight =>
      obtain ⟨hFirst, hBetween⟩ := ihLeft hBefore
      obtain ⟨hSecond, hAfter⟩ := ihRight hBetween
      exact ⟨.binary op hFirst hSecond, hAfter⟩
  | unary op hOperand ih =>
      obtain ⟨hInner, hAfter⟩ := ih hBefore
      exact ⟨.unary op hInner, hAfter⟩

/-- What evaluation asks more of the leaves than equality of structure: that equal numbers are the
same, and that records of equal handles read the same. -/
theorem evalWith_eq {α : Type u} (A : Arithmetic α) {v : Valuation α} (hAlike : Alike e f)
    (hNumbers : ∀ x ∈ e.constants, ∀ y, (x == y) = true → A.number x = A.number y)
    (hRecords : ∀ r ∈ e.records, ∀ s ∈ f.records, r.handle = s.handle →
      v.resolved r = v.resolved s) : e.evalWith A v = f.evalWith A v := by
  induction hAlike with
  | param h => rfl
  | resolved hHandle => exact hRecords _ List.mem_cons_self _ List.mem_cons_self hHandle
  | number hSame => exact hNumbers _ List.mem_cons_self _ hSame
  | binary op hLeft hRight ihLeft ihRight =>
      simp only [constants, records, List.mem_append] at hNumbers hRecords
      rw [evalWith, evalWith,
        ihLeft (fun x hx => hNumbers x (.inl hx)) fun r hr s hs => hRecords r (.inl hr) s (.inl hs),
        ihRight (fun x hx => hNumbers x (.inr hx)) fun r hr s hs =>
          hRecords r (.inr hr) s (.inr hs)]
  | unary op hOperand ih => rw [evalWith, evalWith, ih hNumbers hRecords]

end Alike

/-- Equality of structure is symmetric and transitive, and an expression is equal to itself unless
some constant is not a number. Nothing that looks at the structure tells equal expressions apart:
they have the same counts, the same parameters and resolved parameters or none; derivatives of every
order fail in the same way or are equal again; copies are equal; and so are the results of
resolution, from the same registry for any store and at any two moments for a steady one. Values are
the same if no constant is zero and records of one handle read the same. -/
theorem beq_congruence :
    (∀ e f : Expr, (e == f) = true → (f == e) = true) ∧
    (∀ e f d : Expr, (e == f) = true → (f == d) = true → (e == d) = true) ∧
    (∀ e : Expr, (e == e) = true ↔ ∀ x ∈ e.constants, x.isNaN = false) ∧
    ∀ e f : Expr, (e == f) = true →
      (e.nodeCount = f.nodeCount ∧ e.maxDepth = f.maxDepth ∧ e.paramsUsed = f.paramsUsed ∧
        e.hasResolved = f.hasResolved ∧ ∀ p, e.dependsOn p = f.dependsOn p) ∧
      ((∀ p, SameOutcome (e.derivative p) (f.derivative p)) ∧
        ∀ ps, SameOutcome (e.derivatives ps) (f.derivatives ps)) ∧
      (∀ s g, ((e.resolve s g).1 == (f.resolve s g).1) = true ∧
        (e.resolve s g).2 = (f.resolve s g).2) ∧
      (∀ (s : Store) g g₁ g₂, s.Steady g → s.Leads g g₁ → s.Leads g g₂ →
        ((e.resolve s g₁).1 == (f.resolve s g₂).1) = true) ∧
      (e.copy == f.copy) = true ∧
      ∀ s g, (∀ x ∈ e.constants, (x == 0) = false) →
        (∀ r ∈ e.records, ∀ r' ∈ f.records, r.handle = r'.handle → g.read r = g.read r') →
          e.eval s g = f.eval s g := by
  simp only [beq_iff_alike]
  refine ⟨fun e f => .symm, fun e f d => .trans, Alike.self_iff, fun e f hAlike => ?_⟩
  refine ⟨⟨hAlike.nodeCount_eq, hAlike.maxDepth_eq, ?_, ?_, fun p => ?_⟩,
    ⟨hAlike.sameOutcome_derivative, hAlike.sameOutcome_derivatives⟩, fun s g => ?_,
    fun s g g₁ g₂ hSteady hFirst hSecond => ?_, ?_, fun s g hZero hRecords => ?_⟩
  · exact (paramsUsed_eq_iff e f).mpr hAlike.mentions_iff
  · rw [Bool.eq_iff_iff, hasResolved_iff, hasResolved_iff, hAlike.unresolved_iff]
  · rw [Bool.eq_iff_iff, dependsOn_iff, dependsOn_iff, hAlike.mentions_iff]
  · exact hAlike.resolve (by rintro h g g' rfl; exact ⟨rfl, rfl⟩) rfl
  · have hStep : ∀ h g' g'', s.Leads g g' ∧ s.Leads g g'' →
        (s.resolve h g').1.map (·.handle) = (s.resolve h g'').1.map (·.handle) ∧
          s.Leads g (s.resolve h g').2 ∧ s.Leads g (s.resolve h g'').2 :=
      fun h g' g'' ⟨hLeft, hRight⟩ =>
        ⟨hSteady h _ _ (hLeft.answers h) (hRight.answers h), hLeft.ask h, hRight.ask h⟩
    exact (hAlike.resolve hStep ⟨hFirst, hSecond⟩).1
  · rw [copy_eq, copy_eq]
    exact hAlike
  · refine hAlike.evalWith_eq .binary64 (fun x hx y hSame => ?_) hRecords
    exact Binary64.eq_of_beq hSame (hZero x hx)

/-- Quotients by two records of one parameter, which read the same. -/
theorem beq_congruence_of_two_records :
    let e : Expr := .binary .div (.number 2) (.binary .sub (.resolved ⟨⟨1⟩, 0⟩) (.param ⟨2⟩))
    let f : Expr := .binary .div (.number 2) (.binary .sub (.resolved ⟨⟨1⟩, 1⟩) (.param ⟨2⟩))
    let g := Registry.empty.run [.newRecord ⟨1⟩ 3, .newRecord ⟨1⟩ 3, .insert "t" ⟨2⟩ 5]
    let s := Store.ofTable "t"
    ((e == f) = true ∧ (f == e) = true ∧ (e == e) = true) ∧
      SameOutcome (e.derivatives [⟨2⟩, ⟨1⟩]) (f.derivatives [⟨2⟩, ⟨1⟩]) ∧
      (s.Steady g ∧ s.Leads g g ∧ ((e.resolve s g).1 == (f.resolve s g).1) = true) ∧
      (∀ x ∈ e.constants, (x == 0) = false) ∧
      (∀ r ∈ e.records, ∀ r' ∈ f.records, r.handle = r'.handle → g.read r = g.read r') ∧
      e.eval s g = f.eval s g := by
  intro e f g s
  obtain ⟨hSymm, hTrans, -, hCongr⟩ := beq_congruence
  have hSame : (e == f) = true := by decide
  have hSteady : s.Steady g :=
    .of_function fun h answer => (Store.answers_ofTable "t" g h answer).mp
  have hZero : ∀ x ∈ e.constants, (x == 0) = false := List.forall_mem_singleton.mpr (by decide)
  have hRecords : ∀ r ∈ e.records, ∀ r' ∈ f.records, r.handle = r'.handle →
      g.read r = g.read r' := by
    intro r hr r' hr' _
    cases List.mem_singleton.mp hr
    cases List.mem_singleton.mp hr'
    rfl
  obtain ⟨-, ⟨-, hDerivatives⟩, -, hResolve, -, hEval⟩ := hCongr e f hSame
  exact ⟨⟨hSame, hSymm e f hSame, hTrans e f e hSame (hSymm e f hSame)⟩, hDerivatives _,
    ⟨hSteady, .start, hResolve s g g g hSteady .start .start⟩, hZero, hRecords,
    hEval s g hZero hRecords⟩

/-- The sign of a zero is seen by evaluation. -/
example : (Expr.binary .div (.number 1) (.number 0) ==
      .binary .div (.number 1) (.number (-0))) = true ∧
    ((Expr.binary .div (.number 1) (.number 0)).eval (.ofTable "t") .empty ==
      (Expr.binary .div (.number 1) (.number (-0))).eval (.ofTable "t") .empty) = false := by
  decide +kernel

end Expr

end Formula
