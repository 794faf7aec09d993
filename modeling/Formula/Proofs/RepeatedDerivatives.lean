import Formula.Proofs.GradientEntries

/-! Differentiation again and again. The rules put nothing into a derivative but numbers, operators
and parts of the expression and of its derivatives. So an expression whose parameters are all named
has derivatives of every order, and none of them has a parameter that the expression does not
have. -/
namespace Formula

namespace Expr

variable {S : Handle → Prop} {e u w du dw : Expr}

/-- The derivative with respect to one parameter after the other. -/
def derivatives (e : Expr) (ps : List Handle) : Except DerivativeError Expr :=
  ps.foldlM (fun d p => d.derivative p) e

/-- Every parameter is named, and is one of `S`. -/
def NamesOnly (S : Handle → Prop) : Expr → Prop
  | .param h => S h
  | .resolved _ => False
  | .number _ => True
  | .binary _ left right => left.NamesOnly S ∧ right.NamesOnly S
  | .unary _ operand => operand.NamesOnly S

/-- No resolved leaf, and no parameter that is not in `S`. -/
theorem namesOnly_iff (e : Expr) :
    e.NamesOnly S ↔ e.Unresolved ∧ ∀ p, e.Mentions p → S p := by
  induction e with
  | param h => simp [NamesOnly, Unresolved, Mentions]
  | resolved r => simp [NamesOnly, Unresolved]
  | number x => simp [NamesOnly, Unresolved, Mentions]
  | binary op left right hLeft hRight =>
      simp only [NamesOnly, Unresolved, Mentions, hLeft, hRight, or_imp, forall_and]
      exact and_and_and_comm
  | unary op operand hOperand => exact hOperand

theorem Unresolved.namesOnly (hFree : e.Unresolved) : e.NamesOnly (· ∈ e.paramsUsed) :=
  (namesOnly_iff e).mpr ⟨hFree, fun p hMentions => (mem_paramsUsed_iff e p).mpr hMentions⟩

namespace NamesOnly

theorem unresolved (hNames : e.NamesOnly S) : e.Unresolved :=
  ((namesOnly_iff e).mp hNames).1

theorem of_mem_paramsUsed (hNames : e.NamesOnly S) {p : Handle} (hMem : p ∈ e.paramsUsed) : S p :=
  ((namesOnly_iff e).mp hNames).2 p ((mem_paramsUsed_iff e p).mp hMem)

/-- A rule puts nothing together but operands and their derivatives. -/
theorem binary_rule (op : BinaryOp) (hu : u.NamesOnly S) (hw : w.NamesOnly S)
    (hdu : du.NamesOnly S) (hdw : dw.NamesOnly S) : (op.rule u w du dw).NamesOnly S := by
  cases op with
  | add => exact ⟨hdu, hdw⟩
  | sub => exact ⟨hdu, hdw⟩
  | mul => exact ⟨⟨hu, hdw⟩, hw, hdu⟩
  | div => exact ⟨⟨⟨hdu, hw⟩, hu, hdw⟩, hw⟩

theorem unary_rule (op : UnaryOp) (hu : u.NamesOnly S) (hdu : du.NamesOnly S) :
    (op.rule u du).NamesOnly S := by
  cases op with
  | neg => exact hdu
  | sqrt => exact ⟨⟨trivial, hu⟩, hdu⟩
  | square => exact ⟨⟨trivial, hu⟩, hdu⟩
  | sin => exact ⟨hu, hdu⟩
  | cos => exact ⟨hu, hdu⟩

/-- One derivative. -/
theorem exists_derivative (hNames : e.NamesOnly S) (p : Handle) :
    ∃ d, e.derivative p = .ok d ∧ d.NamesOnly S := by
  induction e with
  | param h => exact ⟨_, rfl, trivial⟩
  | resolved r => exact hNames.elim
  | number x => exact ⟨_, rfl, trivial⟩
  | binary op left right hLeft hRight =>
      obtain ⟨dl, hLeftOk, hdl⟩ := hLeft hNames.1
      obtain ⟨dr, hRightOk, hdr⟩ := hRight hNames.2
      exact ⟨_, derivative_binary_eq_ok op hLeftOk hRightOk,
        binary_rule op hNames.1 hNames.2 hdl hdr⟩
  | unary op operand hOperand =>
      obtain ⟨d, hOk, hd⟩ := hOperand hNames
      exact ⟨_, derivative_unary_eq_ok op hOk, unary_rule op hNames hd⟩

/-- Derivatives of every order. -/
theorem exists_derivatives (hNames : e.NamesOnly S) (ps : List Handle) :
    ∃ d, e.derivatives ps = .ok d ∧ d.NamesOnly S := by
  induction ps generalizing e with
  | nil => exact ⟨e, rfl, hNames⟩
  | cons p ps ih =>
      obtain ⟨d, hFirst, hd⟩ := hNames.exists_derivative p
      obtain ⟨last, hRest, hLast⟩ := ih hd
      refine ⟨last, ?_, hLast⟩
      rw [derivatives, List.foldlM_cons, hFirst]
      exact hRest

/-- An entry is the derivative or zero. -/
theorem exists_gradientEntry (hNames : e.NamesOnly S) (p : Handle) :
    ∃ entry, e.gradientEntry p = .ok entry ∧ entry.NamesOnly S := by
  rw [gradientEntry]
  split
  · exact hNames.exists_derivative p
  · exact ⟨_, rfl, trivial⟩

end NamesOnly

end Expr

open Formula.Expr

/-- The expressions that come up when Jacobians are taken of given expressions, of entries of these
Jacobians, and so on. Each one may be taken of any of the expressions that came up before. -/
inductive EntryOf (es : List Expr) : Expr → Prop where
  | start {e : Expr} (hMem : e ∈ es) : EntryOf es e
  | entry {fs : List Expr} {ps : List Handle} {rows : List (List Expr)} {row : List Expr} {d : Expr}
      (hBefore : ∀ f ∈ fs, EntryOf es f) (hRows : jacobian fs ps = .ok rows) (hRow : row ∈ rows)
      (hEntry : d ∈ row) : EntryOf es d

/-- Nothing comes up among the entries that was not among the parameters at the start. -/
theorem EntryOf.namesOnly {S : Handle → Prop} {es : List Expr} (hAll : ∀ e ∈ es, e.NamesOnly S)
    {d : Expr} (hEntry : EntryOf es d) : d.NamesOnly S := by
  induction hEntry with
  | start hMem => exact hAll _ hMem
  | @entry fs ps rows row d _ hRows hRow hEntry ih =>
      obtain ⟨f, hf, hGradient⟩ := exists_mem_of_mapM_eq_ok hRows hRow
      obtain ⟨p, _, hDerivative⟩ := exists_mem_of_mapM_eq_ok hGradient hEntry
      obtain ⟨entry, hOk, hNames⟩ := (ih f hf).exists_gradientEntry p
      cases hOk.symm.trans hDerivative
      exact hNames

/-- A Jacobian of expressions without resolved parameters exists for all handles. -/
theorem exists_jacobian {fs : List Expr} (hFree : ∀ f ∈ fs, f.Unresolved) (ps : List Handle) :
    ∃ rows, jacobian fs ps = .ok rows := by
  obtain ⟨rows, hRows, -⟩ := exists_mapM_eq_ok (P := fun _ _ => True) fs fun f hf =>
    (exists_gradient ps (.inr (hFree f hf))).imp fun _ hRow => ⟨hRow.1, trivial⟩
  exact ⟨rows, hRows⟩

/-- Expressions without resolved parameters can be differentiated any number of times. Every
derivative of every order exists, has no resolved parameter and none that the expression does not
have. The same holds of the entries of Jacobians, of the entries of Jacobians of these entries, and
so on: each of them has a gradient, and they have Jacobians together. -/
theorem exists_derivatives_of_unresolved :
    (∀ e : Expr, e.Unresolved → ∀ ps, ∃ d, e.derivatives ps = .ok d ∧ d.Unresolved ∧
      d.paramsUsed ⊆ e.paramsUsed) ∧
    ∀ es : List Expr, (∀ e ∈ es, e.Unresolved) →
      (∀ d, EntryOf es d → d.Unresolved ∧ (∀ p ∈ d.paramsUsed, ∃ e ∈ es, p ∈ e.paramsUsed) ∧
        ∀ ps, ∃ row, gradient d ps = .ok row) ∧
      ∀ fs, (∀ f ∈ fs, EntryOf es f) → ∀ ps, ∃ rows, jacobian fs ps = .ok rows := by
  refine ⟨fun e hFree ps => ?_, fun es hFree => ?_⟩
  · obtain ⟨d, hOk, hNames⟩ := hFree.namesOnly.exists_derivatives ps
    exact ⟨d, hOk, hNames.unresolved, fun p hMem => hNames.of_mem_paramsUsed hMem⟩
  · have hAll : ∀ e ∈ es, e.NamesOnly fun p => ∃ e ∈ es, p ∈ e.paramsUsed := fun e hMem =>
      (namesOnly_iff e).mpr ⟨hFree e hMem, fun p hp => ⟨e, hMem, (mem_paramsUsed_iff e p).mpr hp⟩⟩
    refine ⟨fun d hEntry => ?_, fun fs hBefore ps => ?_⟩
    · have hNames := hEntry.namesOnly hAll
      refine ⟨hNames.unresolved, fun p hMem => hNames.of_mem_paramsUsed hMem, fun ps => ?_⟩
      obtain ⟨row, hRow, -⟩ := exists_gradient ps (.inr hNames.unresolved)
      exact ⟨row, hRow⟩
    · exact exists_jacobian (fun f hf => ((hBefore f hf).namesOnly hAll).unresolved) ps

/-- Three derivatives of a quotient, the last for a parameter that does not occur; the gradient of
an entry of its Jacobian, which the quotient rule has put together; and the Jacobian of this entry
with the quotient itself. -/
theorem exists_derivatives_of_quotient :
    let e : Expr := .binary .div (.unary .sin (.param ⟨1⟩)) (.unary .sqrt (.param ⟨2⟩))
    e.Unresolved ∧
      (∃ d, e.derivatives [⟨1⟩, ⟨2⟩, ⟨3⟩] = .ok d ∧ d.Unresolved ∧ d.paramsUsed ⊆ e.paramsUsed) ∧
      ∃ rows u v, jacobian [e] [⟨2⟩, ⟨3⟩] = .ok rows ∧
        rows = [[.binary .div u v, .number 0]] ∧ EntryOf [e] (.binary .div u v) ∧
          (∃ row, gradient (.binary .div u v) [⟨1⟩, ⟨2⟩] = .ok row) ∧
          ∃ rows, jacobian [.binary .div u v, e] [⟨1⟩, ⟨2⟩] = .ok rows := by
  intro e
  have hFree : e.Unresolved := ⟨trivial, trivial⟩
  have hAll : ∀ f ∈ [e], f.Unresolved := List.forall_mem_singleton.mpr hFree
  obtain ⟨hDerivatives, hEntries⟩ := exists_derivatives_of_unresolved
  have hStart : ∀ f ∈ [e], EntryOf [e] f := fun f hMem => .start hMem
  have hRows : jacobian [e] [⟨2⟩, ⟨3⟩] = .ok _ := rfl
  have hEntry := EntryOf.entry hStart hRows List.mem_cons_self List.mem_cons_self
  obtain ⟨hEach, hTogether⟩ := hEntries [e] hAll
  exact ⟨hFree, hDerivatives e hFree _, _, _, _, hRows, rfl, hEntry, (hEach _ hEntry).2.2 _,
    hTogether _ (List.forall_mem_cons.mpr ⟨hEntry, hStart⟩) _⟩

end Formula
