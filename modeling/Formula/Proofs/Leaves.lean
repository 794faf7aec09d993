import Formula.Proofs.GradientEntries
import Formula.Proofs.Tracking

/-! The leaves of an expression tell its parameters and its value. A parameter occurs where it is
named or where a record of it is held, and nothing but names and records is read for a value. -/
namespace Formula.Expr

universe u

/-- A parameter that occurs is named at some leaf, or it is that of some record. -/
theorem mentions_iff (e : Expr) (p : Handle) :
    e.Mentions p ↔ e.Names p ∨ ∃ r ∈ e.records, r.handle = p := by
  induction e with
  | param h => simp [Mentions, Names, records]
  | resolved r => simp [Mentions, Names, records]
  | number x => simp [Mentions, Names, records]
  | binary op left right hLeft hRight =>
      simp only [Mentions, Names, records, List.mem_append, or_and_right, exists_or, hLeft, hRight]
      exact or_or_or_comm
  | unary op operand hOperand => exact hOperand

variable {α : Type u} (A : Arithmetic α) {v w : Valuation α} {e : Expr}

/-- The value is told by the values at the leaves. -/
theorem evalWith_congr (hParam : ∀ h, e.Names h → v.param h = w.param h)
    (hRecord : ∀ r ∈ e.records, v.resolved r = w.resolved r) :
    e.evalWith A v = e.evalWith A w := by
  induction e with
  | param h => exact hParam h rfl
  | resolved r => exact hRecord r List.mem_cons_self
  | number x => rfl
  | binary op left right hLeft hRight =>
      have hFirst := hLeft (fun h hName => hParam h (.inl hName))
        fun r hMem => hRecord r (List.mem_append_left _ hMem)
      have hSecond := hRight (fun h hName => hParam h (.inr hName))
        fun r hMem => hRecord r (List.mem_append_right _ hMem)
      rw [evalWith, evalWith, hFirst, hSecond]
  | unary op operand hOperand => rw [evalWith, evalWith, hOperand hParam hRecord]

/-- Valuations that differ at parameters only that do not occur give one value. -/
theorem evalWith_congr_of_mentions (hParam : ∀ h, e.Mentions h → v.param h = w.param h)
    (hRecord : ∀ r, e.Mentions r.handle → v.resolved r = w.resolved r) :
    e.evalWith A v = e.evalWith A w := by
  apply evalWith_congr
  · exact fun h hName => hParam h ((mentions_iff e h).mpr (.inl hName))
  · exact fun r hMem => hRecord r ((mentions_iff e r.handle).mpr (.inr ⟨r, hMem, rfl⟩))

end Formula.Expr
