import Formula.Proofs.Leaves
import Formula.Proofs.SessionRefinement

/-! What the value of an expression depends on. Nothing is read but the named parameters and the
records of the expression, and giving a parameter a value in some table changes no record of
another parameter: each record has a cell of its own, and a table keeps it under its own handle.
So parameters that the search does not find have no part in the value. -/
namespace Formula

/-- The request gives the parameter `p` a value in some table. -/
inductive Request.Gives (p : Handle) : Request → Prop where
  | insert (name : String) (v : Float) : Gives p (.insert name p v)
  | set (name : String) (v : Float) : Gives p (.set name p v)

/-- Whatever the later session reads of parameters other than `p`, the earlier one did. -/
structure KeepsOthers (p : Handle) (s t : Session) : Prop where
  lookup : ∀ name h, h ≠ p → t.registry.lookup name h = s.registry.lookup name h
  held : ∀ r ∈ s.held, r ∈ t.held
  read : ∀ r ∈ s.held, r.handle ≠ p → t.registry.read r = s.registry.read r

namespace KeepsOthers

variable {p : Handle} {s t : Session}

theorem refl (p : Handle) (s : Session) : KeepsOthers p s s :=
  ⟨fun _ _ _ => rfl, fun _ hMem => hMem, fun _ _ _ => rfl⟩

theorem trans {u : Session} (hFirst : KeepsOthers p s t) (hSecond : KeepsOthers p t u) :
    KeepsOthers p s u where
  lookup name h hOther := (hSecond.lookup name h hOther).trans (hFirst.lookup name h hOther)
  held r hMem := hSecond.held r (hFirst.held r hMem)
  read r hMem hOther :=
    (hSecond.read r (hFirst.held r hMem) hOther).trans (hFirst.read r hMem hOther)

end KeepsOthers

namespace Follows

variable {s : Session} {plain : PlainSession} {layout : List Slot} {p : Handle}

/-- The target of the request is a slot of `p`, so neither the tables' slots of other parameters
nor those of their records are written. -/
theorem keepsOthers_perform (hFollows : Follows s plain layout) {q : Request} (hGives : q.Gives p) :
    KeepsOthers p s (s.perform q) := by
  have hAgrees := hFollows.agrees
  obtain ⟨name, hMakes, hTarget⟩ : ∃ name, q.makes? = none ∧
      plain.target? q = some ⟨plain.maps.current name, p⟩ := by
    cases hGives with
    | insert name v => exact ⟨name, rfl, rfl⟩
    | set name v => exact ⟨name, rfl, rfl⟩
  have hOthers {a : Slot} (hOther : a.handle ≠ p) : plain.target? q ≠ some a := by
    intro hSame
    cases hTarget.symm.trans hSame
    exact hOther rfl
  constructor
  · intro other h hOther
    have hKeeps := hAgrees.keeps_table q other h (by simp [hMakes]) (hOthers hOther)
    exact congrArg (·.getD Binary64.nan) hKeeps
  · intro r hMem
    cases hGives with
    | insert name v => exact List.mem_append_left _ hMem
    | set name v => exact hMem
  · intro r hMem hOther
    obtain ⟨i, hRecord⟩ := List.mem_iff_getElem?.mp hMem
    rcases getElem?_of_forall₂ hFollows.held i with ⟨hNone, -⟩ | ⟨r', a, hHeld, hSlot, hStands⟩
    · cases hNone.symm.trans hRecord
    · cases hHeld.symm.trans hRecord
      exact hAgrees.keeps_record q i r a hRecord hSlot (hOthers (hStands.1 ▸ hOther))

/-- Any number of requests for `p` leave the other parameters alone. -/
theorem keepsOthers_run (hFollows : Follows s plain layout) {updates : List Request}
    (hGives : ∀ q ∈ updates, q.Gives p) : KeepsOthers p s (s.run updates) := by
  induction updates generalizing s plain layout with
  | nil => exact .refl p s
  | cons q updates ih =>
      obtain ⟨hFirst, hRest⟩ := List.forall_mem_cons.mp hGives
      obtain ⟨more, hAfter⟩ := hFollows.perform q
      exact (hFollows.keepsOthers_perform hFirst).trans (ih hAfter hRest)

end Follows

/-- The value of an expression depends on its parameters alone. Whatever a program has done with
tables and records, and whichever of the records that it has got an expression holds: giving values
to a parameter that the expression does not depend on, in any of the tables, changes its value at
none of them. And two stores give an expression one value, in whatever registries, when its named
parameters and its records have the same values in both. -/
theorem eval_of_not_dependsOn :
    (∀ (requests updates : List Request) (e : Expr) (p : Handle),
      (∀ r ∈ e.records, r ∈ (Session.empty.run requests).held) → e.dependsOn p = false →
      (∀ q ∈ updates, q.Gives p) → ∀ name,
        e.eval (.ofTable name) ((Session.empty.run requests).run updates).registry =
          e.eval (.ofTable name) (Session.empty.run requests).registry) ∧
    ∀ (e : Expr) (first second : Store) (g g' : Registry),
      (∀ h, e.Names h → first.lookup g h = second.lookup g' h) →
      (∀ r ∈ e.records, g.read r = g'.read r) → e.eval first g = e.eval second g' := by
  refine ⟨?_, fun e first second g g' hParam hRecord =>
    Expr.evalWith_congr .binary64 hParam hRecord⟩
  intro requests updates e p hHeld hAbsent hGives name
  have hStart : Follows .empty .empty [] := ⟨.empty, .nil⟩
  obtain ⟨layout, hFollows⟩ := hStart.run requests
  have hKeeps := hFollows.keepsOthers_run hGives
  have hMentions : ¬ e.Mentions p := by
    rw [← Expr.dependsOn_iff, hAbsent]
    exact Bool.false_ne_true
  rw [Expr.mentions_iff, not_or] at hMentions
  obtain ⟨hNames, hRecords⟩ := hMentions
  apply Expr.evalWith_congr
  · intro h hName
    apply hKeeps.lookup
    rintro rfl
    exact hNames hName
  · intro r hMem
    exact hKeeps.read r (hHeld r hMem) fun hSame => hRecords ⟨r, hMem, hSame⟩

/-- A named parameter, a record of a table and one of none. The table gets a record for a third
parameter and another value for it; another world, where only the leaves have the same values, gives
the expression the same value. -/
theorem eval_of_product_not_dependsOn :
    let s := Session.empty.run [.insert "t" ⟨1⟩ 3, .insert "t" ⟨2⟩ 5, .newRecord ⟨2⟩ 2]
    let updates : List Request := [.insert "t" ⟨7⟩ 9, .set "t" ⟨7⟩ 4, .insert "u" ⟨7⟩ 1]
    let e : Expr := .binary .mul (.param ⟨1⟩)
      (.binary .add (.resolved ⟨⟨2⟩, 1⟩) (.resolved ⟨⟨2⟩, 2⟩))
    let g := Registry.empty.run [.insert "v" ⟨1⟩ 3, .newRecord ⟨2⟩ 5, .newRecord ⟨2⟩ 2]
    (∀ r ∈ e.records, r ∈ s.held) ∧ e.dependsOn ⟨7⟩ = false ∧ (∀ q ∈ updates, q.Gives ⟨7⟩) ∧
      e.eval (.ofTable "t") (s.run updates).registry = 21 ∧
      (∀ h, e.Names h → (Store.ofTable "v").lookup g h =
        (Store.ofTable "t").lookup s.registry h) ∧
      (∀ r ∈ e.records, g.read r = s.registry.read r) ∧ e.eval (.ofTable "v") g = 21 := by
  intro s updates e g
  have hRecords : e.records = [⟨⟨2⟩, 1⟩, ⟨⟨2⟩, 2⟩] := rfl
  have hHeld : ∀ r ∈ e.records, r ∈ s.held := by
    rw [hRecords]
    decide +kernel
  have hAbsent : e.dependsOn ⟨7⟩ = false := by decide
  have hGives : ∀ q ∈ updates, q.Gives ⟨7⟩ := by
    simp only [updates, List.forall_mem_cons]
    exact ⟨.insert "t" 9, .set "t" 4, .insert "u" 1, List.forall_mem_nil _⟩
  have hValue : e.eval (.ofTable "t") s.registry = 21 := by decide +kernel
  have hParam : ∀ h, e.Names h → (Store.ofTable "v").lookup g h =
      (Store.ofTable "t").lookup s.registry h := by
    intro h hName
    obtain rfl : (⟨1⟩ : Handle) = h :=
      hName.resolve_right (by rintro (hNone | hNone) <;> exact hNone)
    decide +kernel
  have hRead : ∀ r ∈ e.records, g.read r = s.registry.read r := by
    rw [hRecords]
    decide +kernel
  obtain ⟨hKeeps, hTold⟩ := eval_of_not_dependsOn
  refine ⟨hHeld, hAbsent, hGives, ?_, hParam, hRead, ?_⟩
  · exact (hKeeps _ updates e ⟨7⟩ hHeld hAbsent hGives "t").trans hValue
  · exact (hTold e _ _ g s.registry hParam hRead).trans hValue

end Formula
