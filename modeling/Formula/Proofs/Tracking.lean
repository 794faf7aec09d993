import Formula.Expr.Evaluation
import Formula.Expr.Resolution
import Formula.Proofs.TableRecords

/-! Resolved expressions go on to follow the table that they were resolved against. A resolved
leaf shares the record of the table, and the table never gets another record for that handle; so
reading the record and looking the handle up give the same value in every later registry. -/
namespace Formula

namespace Expr

universe u

/-- The parameter is named at some leaf, to be looked up on evaluation. -/
def Names (h : Handle) : Expr → Prop
  | .param k => k = h
  | .resolved _ | .number _ => False
  | .binary _ left right => left.Names h ∨ right.Names h
  | .unary _ operand => operand.Names h

/-- The expression with records in the place of the named parameters that `find` has one for. -/
def withRecords (find : Handle → Option Record) : Expr → Expr
  | .param h => (find h).elim (.param h) .resolved
  | .resolved r => .resolved r
  | .number x => .number x
  | .binary op left right => .binary op (left.withRecords find) (right.withRecords find)
  | .unary op operand => .unary op (operand.withRecords find)

/-- Resolving against a table makes no records and changes none. -/
theorem resolve_ofTable (e : Expr) (name : String) (g : Registry) :
    e.resolve (.ofTable name) g = (e.withRecords (g.table name).record?, g) := by
  induction e with
  | param h =>
      simp only [resolve, resolveM, withRecords, Store.ofTable, bind, StateT.bind]
      cases (g.table name).record? h with
      | none => rfl
      | some r => rfl
  | resolved r => rfl
  | number x => rfl
  | binary op left right hLeft hRight =>
      simp only [resolve, resolveM, bind, StateT.bind] at hLeft hRight ⊢
      rw [hLeft]
      simp only [hRight]
      rfl
  | unary op operand hOperand =>
      simp only [resolve, resolveM, bind, StateT.bind] at hOperand ⊢
      rw [hOperand]
      rfl

/-- Records may stand for parameters wherever they have the values of the parameters. What the
valuation says of handles whose parameters are all replaced has no part in the value. -/
theorem evalWith_withRecords {α : Type u} (A : Arithmetic α) {v w : Valuation α}
    {find : Handle → Option Record} {e : Expr} (hResolved : v.resolved = w.resolved)
    (hParam : ∀ h, e.Names h → (find h).elim (v.param h) v.resolved = w.param h) :
    (e.withRecords find).evalWith A v = e.evalWith A w := by
  induction e with
  | param h =>
      have hLeaf := hParam h rfl
      rw [withRecords]
      cases hFind : find h with
      | none =>
          rw [hFind] at hLeaf
          exact hLeaf
      | some r =>
          rw [hFind] at hLeaf
          exact hLeaf
  | resolved r => exact congrFun hResolved r
  | number x => rfl
  | binary op left right hLeft hRight =>
      rw [withRecords, evalWith, evalWith, hLeft fun h hName => hParam h (.inl hName),
        hRight fun h hName => hParam h (.inr hName)]
  | unary op operand hOperand =>
      rw [withRecords, evalWith, evalWith, hOperand hParam]

end Expr

namespace Registry

variable {g : Registry} {name : String} {h : Handle}

/-- The value of a handle is the value of its record. -/
theorem lookup_of_record? {r : Record} (hRecord : (g.table name).record? h = some r) :
    g.lookup name h = g.read r := by
  rw [lookup, Table.lookup, Table.get?, hRecord]
  rfl

/-- The record that a table held for a handle reads what the handle is looked up as, at any later
time. -/
theorem read_run {r : Record} {ops : List Operation} (hKeeps : .newTable name ∉ ops)
    (hRecord : (g.table name).record? h = some r) :
    (g.run ops).read r = (g.run ops).lookup name h :=
  (lookup_of_record? (record?_run hKeeps hRecord)).symm

end Registry

open Registry

/-- An expression that was resolved against a table keeps the value that the plain expression has
at that table, in every later registry, as long as the table is not started anew. When the table
knew every named parameter, no store has a part in that value any more. -/
theorem eval_resolve_run (g : Registry) (name : String) (e : Expr) :
    ∃ r, e.resolve (.ofTable name) g = (r, g) ∧
      ∀ ops, .newTable name ∉ ops →
        r.eval (.ofTable name) (g.run ops) = e.eval (.ofTable name) (g.run ops) ∧
        ((∀ h, e.Names h → (g.table name).contains h = true) →
          ∀ other : Store, r.eval other (g.run ops) = e.eval (.ofTable name) (g.run ops)) := by
  refine ⟨_, e.resolve_ofTable name g, ?_⟩
  intro ops hKeeps
  constructor
  · apply Expr.evalWith_withRecords
    · rfl
    · intro h hName
      cases hRecord : (g.table name).record? h with
      | none => rfl
      | some r => exact read_run hKeeps hRecord
  · intro hKnown other
    apply Expr.evalWith_withRecords
    · rfl
    · intro h hName
      have hSome := hKnown h hName
      rw [← Table.isSome_record?] at hSome
      obtain ⟨r, hRecord⟩ := Option.isSome_iff_exists.mp hSome
      rw [hRecord]
      exact read_run hKeeps hRecord

/-- A record that the expression holds from the start keeps its own value beside the record that the
table has for the same handle. Both follow what is written to them after the resolution. -/
theorem eval_resolve_run_two_records :
    let g := Registry.empty.run [.insert "t" ⟨1⟩ 3, .newRecord ⟨1⟩ 2]
    let e : Expr := .binary .mul (.param ⟨1⟩) (.resolved ⟨⟨1⟩, 1⟩)
    let ops := [.insert "t" ⟨7⟩ 1, .set "t" ⟨1⟩ 10, .write ⟨⟨1⟩, 1⟩ 4]
    .newTable "t" ∉ ops ∧ (∀ h, e.Names h → (g.table "t").contains h = true) ∧
      ∃ r, e.resolve (.ofTable "t") g = (r, g) ∧
        ∀ other : Store, r.eval other (g.run ops) = 40 := by
  intro g e ops
  have hKeeps : .newTable "t" ∉ ops := by simp [ops]
  have hKnown : ∀ h, e.Names h → (g.table "t").contains h = true := by
    intro h hName
    obtain rfl : (⟨1⟩ : Handle) = h := hName.resolve_right id
    decide +kernel
  have hValue : e.eval (.ofTable "t") (g.run ops) = 40 := by decide +kernel
  obtain ⟨r, hResolve, hRun⟩ := eval_resolve_run g "t" e
  refine ⟨hKeeps, hKnown, r, hResolve, fun other => ?_⟩
  rw [(hRun ops hKeeps).2 hKnown other, hValue]

end Formula
