import Formula.Proofs.Searches

/-! What resolution changes. It asks the store for one named parameter after the other, from left to
right, and puts what it gets in the place of the name; nothing else of the expression is touched.
A store may make records as it is asked, so its answers are those that it gives at first or behind
other questions. -/
namespace Formula

namespace Store

variable {s : Store} {g g' : Registry}

/-- The registries that questions to the store lead to. -/
inductive Leads (s : Store) (g : Registry) : Registry → Prop where
  | start : Leads s g g
  | ask {g' : Registry} (hBefore : Leads s g g') (h : Handle) : Leads s g (s.resolve h g').2

/-- The store gives this answer for the handle, at first or behind other questions. -/
def Answers (s : Store) (g : Registry) (h : Handle) (answer : Option Record) : Prop :=
  ∃ g', s.Leads g g' ∧ (s.resolve h g').1 = answer

/-- The records that the store hands out have the handles that it was asked for. -/
def Coherent (s : Store) (g : Registry) : Prop :=
  ∀ h r, s.Answers g h (some r) → r.handle = h

/-- Whatever was asked before, the answers for a handle are the same up to the cells of the
records. -/
def Steady (s : Store) (g : Registry) : Prop :=
  ∀ h a b, s.Answers g h a → s.Answers g h b → a.map (·.handle) = b.map (·.handle)

theorem Leads.answers (hLeads : s.Leads g g') (h : Handle) : s.Answers g h (s.resolve h g').1 :=
  ⟨g', hLeads, rfl⟩

theorem leads_ofTable {name : String} (hLeads : (ofTable name).Leads g g') : g' = g := by
  induction hLeads with
  | start => rfl
  | ask _ h ih => exact ih

/-- A table answers with the records that it holds. -/
theorem answers_ofTable (name : String) (g : Registry) (h : Handle) (answer : Option Record) :
    (ofTable name).Answers g h answer ↔ answer = (g.table name).record? h := by
  constructor
  · rintro ⟨g', hLeads, rfl⟩
    rw [leads_ofTable hLeads]
    rfl
  · rintro rfl
    exact Leads.start.answers h

end Store

namespace Expr

universe u

/-- The second expression is the first one with some of the named parameters replaced by records,
each as the answers have it. All else stands where it stood. -/
inductive Replaces (answers : Handle → Option Record → Prop) : Expr → Expr → Prop where
  | replaced {h : Handle} {r : Record} (hAnswer : answers h (some r)) :
      Replaces answers (.param h) (.resolved r)
  | kept {h : Handle} (hAnswer : answers h none) : Replaces answers (.param h) (.param h)
  | resolved (r : Record) : Replaces answers (.resolved r) (.resolved r)
  | number (x : Float) : Replaces answers (.number x) (.number x)
  | binary (op : BinaryOp) {left right left' right' : Expr} (hLeft : Replaces answers left left')
      (hRight : Replaces answers right right') :
      Replaces answers (.binary op left right) (.binary op left' right')
  | unary (op : UnaryOp) {operand operand' : Expr} (hOperand : Replaces answers operand operand') :
      Replaces answers (.unary op operand) (.unary op operand')

theorem resolve_param (s : Store) (h : Handle) (g : Registry) :
    (param h).resolve s g = ((s.resolve h g).1.elim (.param h) .resolved, (s.resolve h g).2) := by
  simp only [resolve, resolveM, bind, StateT.bind]
  cases (s.resolve h g).1 with
  | none => rfl
  | some r => rfl

/-- Resolution goes through the expression from left to right, and replaces by what is answered on
the way. -/
theorem replaces_resolve {s : Store} {g g' : Registry} (hLeads : s.Leads g g') (e : Expr) :
    Replaces (s.Answers g) e (e.resolve s g').1 ∧ s.Leads g (e.resolve s g').2 := by
  induction e generalizing g' with
  | param h =>
      have hAnswer := hLeads.answers h
      rw [resolve_param]
      refine ⟨?_, hLeads.ask h⟩
      cases hRecord : (s.resolve h g').1 with
      | none => exact .kept (hRecord ▸ hAnswer)
      | some r => exact .replaced (hRecord ▸ hAnswer)
  | resolved r => exact ⟨.resolved r, hLeads⟩
  | number x => exact ⟨.number x, hLeads⟩
  | binary op left right hLeft hRight =>
      obtain ⟨hFirst, hBetween⟩ := hLeft hLeads
      obtain ⟨hSecond, hAfter⟩ := hRight hBetween
      exact ⟨.binary op hFirst hSecond, hAfter⟩
  | unary op operand hOperand =>
      obtain ⟨hInner, hAfter⟩ := hOperand hLeads
      exact ⟨.unary op hInner, hAfter⟩

namespace Replaces

variable {answers : Handle → Option Record → Prop} {e r : Expr}

theorem nodeCount_eq (hReplaces : Replaces answers e r) : r.nodeCount = e.nodeCount := by
  induction hReplaces with
  | replaced hAnswer | kept hAnswer | resolved s | number x => rfl
  | binary op hLeft hRight ihLeft ihRight => rw [nodeCount, nodeCount, ihLeft, ihRight]
  | unary op hOperand ih => rw [nodeCount, nodeCount, ih]

theorem maxDepth_eq (hReplaces : Replaces answers e r) : r.maxDepth = e.maxDepth := by
  induction hReplaces with
  | replaced hAnswer | kept hAnswer | resolved s | number x => rfl
  | binary op hLeft hRight ihLeft ihRight => rw [maxDepth, maxDepth, ihLeft, ihRight]
  | unary op hOperand ih => rw [maxDepth, maxDepth, ih]

/-- Records of the right handles stand for the same parameters. -/
theorem mentions_iff (hReplaces : Replaces answers e r)
    (hHandles : ∀ h s, answers h (some s) → s.handle = h) (p : Handle) :
    r.Mentions p ↔ e.Mentions p := by
  induction hReplaces with
  | replaced hAnswer => rw [Mentions, Mentions, hHandles _ _ hAnswer]
  | kept hAnswer | resolved s | number x => rfl
  | binary op hLeft hRight ihLeft ihRight => rw [Mentions, Mentions, ihLeft, ihRight]
  | unary op hOperand ih => exact ih

/-- The names that are left are those without a record. -/
theorem answers_none_of_names (hReplaces : Replaces answers e r) {h : Handle}
    (hName : r.Names h) : answers h none := by
  induction hReplaces with
  | replaced hAnswer | resolved s | number x => exact hName.elim
  | kept hAnswer => exact hName ▸ hAnswer
  | binary op hLeft hRight ihLeft ihRight => exact hName.elim ihLeft ihRight
  | unary op hOperand ih => exact ih hName

/-- Without records to answer with, nothing is replaced. -/
theorem eq_self (hReplaces : Replaces answers e r)
    (hNone : ∀ h s, e.Names h → ¬ answers h (some s)) : r = e := by
  induction hReplaces with
  | replaced hAnswer => exact absurd hAnswer (hNone _ _ rfl)
  | kept hAnswer | resolved s | number x => rfl
  | binary op hLeft hRight ihLeft ihRight =>
      rw [ihLeft fun h s hName => hNone h s (.inl hName),
        ihRight fun h s hName => hNone h s (.inr hName)]
  | unary op hOperand ih => rw [ih hNone]

/-- Where every handle has one answer, the answers tell the whole expression. -/
theorem eq_withRecords (hReplaces : Replaces answers e r) {find : Handle → Option Record}
    (hFind : ∀ h answer, answers h answer → answer = find h) : r = e.withRecords find := by
  induction hReplaces with
  | replaced hAnswer =>
      rw [withRecords, ← hFind _ _ hAnswer]
      rfl
  | kept hAnswer =>
      rw [withRecords, ← hFind _ _ hAnswer]
      rfl
  | resolved s | number x => rfl
  | binary op hLeft hRight ihLeft ihRight => rw [withRecords, ← ihLeft, ← ihRight]
  | unary op hOperand ih => rw [withRecords, ← ih]

/-- There is a record in the new expression if there was one before or one was put in. -/
theorem not_unresolved_iff (hReplaces : Replaces answers e r)
    (hSure : ∀ h s, answers h (some s) → ¬ answers h none) :
    ¬ r.Unresolved ↔ ¬ e.Unresolved ∨ ∃ h s, e.Names h ∧ answers h (some s) := by
  induction hReplaces with
  | @replaced h s hAnswer => exact iff_of_true id (.inr ⟨h, s, rfl, hAnswer⟩)
  | @kept h hAnswer =>
      refine iff_of_false (fun hHeld => hHeld trivial) ?_
      rintro (hHeld | ⟨k, s, hName, hRecord⟩)
      · exact hHeld trivial
      · exact hSure k s hRecord (hName ▸ hAnswer)
  | resolved s => simp [Unresolved]
  | number x => simp [Unresolved, Names]
  | binary op hLeft hRight ihLeft ihRight =>
      simp only [Unresolved, Names, Classical.not_and_iff_not_or_not, ihLeft, ihRight,
        or_and_right, exists_or]
      exact or_or_or_comm
  | unary op hOperand ih => exact ih

/-- Records that have the values of the parameters keep the value of the expression. -/
theorem evalWith_eq {α : Type u} (A : Arithmetic α) {v : Valuation α}
    (hReplaces : Replaces answers e r)
    (hValues : ∀ h s, e.Names h → s ∈ r.records → answers h (some s) → v.resolved s = v.param h) :
    r.evalWith A v = e.evalWith A v := by
  induction hReplaces with
  | replaced hAnswer => exact hValues _ _ rfl List.mem_cons_self hAnswer
  | kept hAnswer | resolved s | number x => rfl
  | binary op hLeft hRight ihLeft ihRight =>
      rw [evalWith, evalWith,
        ihLeft fun h s hName hMem => hValues h s (.inl hName) (List.mem_append_left _ hMem),
        ihRight fun h s hName hMem => hValues h s (.inr hName) (List.mem_append_right _ hMem)]
  | unary op hOperand ih => rw [evalWith, evalWith, ih hValues]

end Replaces

end Expr

open Formula.Expr

/-- A store with one answer for each handle is steady. -/
theorem Store.Steady.of_function {s : Store} {g : Registry} {find : Handle → Option Record}
    (hFind : ∀ h answer, s.Answers g h answer → answer = find h) : s.Steady g := by
  intro h a b ha hb
  rw [hFind h a ha, hFind h b hb]

/-- A steady store that has a record for a handle never has none. -/
theorem Store.Steady.not_answers_none {s : Store} {g : Registry} (hSteady : s.Steady g)
    {h : Handle} {r : Record} (hRecord : s.Answers g h (some r)) : ¬ s.Answers g h none := by
  intro hNone
  cases hSteady h _ _ hRecord hNone

/-- What resolution does, and what it leaves alone. Nodes, depth and parameters stay as they are.
Operators, numbers and resolved parameters stay in their places, the latter with the records that
they have; a named parameter gets the record that the store answers for it and keeps its name where
the answer is none. A store with one answer for each handle is steady. With a steady store there are
resolved parameters afterwards exactly when there were some or the store has a record for some name;
and resolving once more, at any later time, changes nothing. In every registry where the records
that were put in read what the store looks their handles up as, the value is the same. All this
holds of the tables of every registry that a program can get, whose records do read so. -/
theorem resolve_replaces_names :
    (∀ (s : Store) (g : Registry) (e : Expr), s.Coherent g →
      let r := (e.resolve s g).1
      (r.nodeCount = e.nodeCount ∧ r.maxDepth = e.maxDepth ∧ r.paramsUsed = e.paramsUsed) ∧
      Replaces (s.Answers g) e r ∧
      (∀ find, (∀ h answer, s.Answers g h answer → answer = find h) →
        s.Steady g ∧ r = e.withRecords find) ∧
      (s.Steady g →
        (r.hasResolved = true ↔
          e.hasResolved = true ∨ ∃ h record, e.Names h ∧ s.Answers g h (some record)) ∧
        ∀ g', s.Leads g g' → (r.resolve s g').1 = r) ∧
      ∀ g' : Registry, (∀ h record, e.Names h → record ∈ r.records →
        s.Answers g h (some record) → g'.read record = s.lookup g' h) →
          r.eval s g' = e.eval s g') ∧
    ∀ g : Registry, g.Reachable → ∀ name,
      (Store.ofTable name).Coherent g ∧ (Store.ofTable name).Steady g ∧
      (∀ h answer, (Store.ofTable name).Answers g h answer ↔
        answer = (g.table name).record? h) ∧
      ∀ h record, (Store.ofTable name).Answers g h (some record) →
        g.read record = (Store.ofTable name).lookup g h := by
  refine ⟨fun s g e hCoherent => ?_, fun g hReachable name => ?_⟩
  · intro r
    obtain ⟨hReplaces, -⟩ : Replaces (s.Answers g) e r ∧ _ := replaces_resolve .start e
    refine ⟨⟨hReplaces.nodeCount_eq, hReplaces.maxDepth_eq, ?_⟩, hReplaces, fun find hFind => ?_,
      fun hSteady => ⟨?_, fun g' hLeads => ?_⟩,
      fun g' hValues => hReplaces.evalWith_eq .binary64 hValues⟩
    · exact (paramsUsed_eq_iff r e).mpr (hReplaces.mentions_iff hCoherent)
    · exact ⟨.of_function hFind, hReplaces.eq_withRecords hFind⟩
    · rw [hasResolved_iff, hasResolved_iff]
      exact hReplaces.not_unresolved_iff fun h record => hSteady.not_answers_none
    · obtain ⟨hAgain, -⟩ := replaces_resolve hLeads r
      refine hAgain.eq_self fun h record hName hRecord => ?_
      exact hSteady.not_answers_none hRecord (hReplaces.answers_none_of_names hName)
  · have hAnswers := Store.answers_ofTable name g
    refine ⟨fun h r hRecord => ?_, .of_function fun h answer => (hAnswers h answer).mp, hAnswers,
      fun h r hRecord => ?_⟩
    · exact hReachable.keysRecords name h r ((hAnswers h _).mp hRecord).symm
    · exact (Registry.lookup_of_record? ((hAnswers h _).mp hRecord).symm).symm

/-- A table that knows one of two names, beside a record that it does not have; and a store that
makes a record whenever it is asked, so that one name gets two records. -/
theorem resolve_product_of_names :
    let held : Record := ⟨⟨1⟩, 1⟩
    let e : Expr := .binary .mul (.param ⟨1⟩) (.binary .add (.param ⟨7⟩) (.resolved held))
    let g := Registry.empty.run [.insert "t" ⟨1⟩ 3, .newRecord ⟨1⟩ 4]
    let maker : Store :=
      ⟨fun _ _ => 4, fun h g => (some (g.newRecord h 4).1, (g.newRecord h 4).2)⟩
    let r : Expr :=
      .binary .mul (.resolved ⟨⟨1⟩, 0⟩) (.binary .add (.param ⟨7⟩) (.resolved held))
    let r' : Expr := .binary .mul (.resolved ⟨⟨1⟩, 2⟩)
      (.binary .add (.resolved ⟨⟨7⟩, 3⟩) (.resolved held))
    ((e.resolve (.ofTable "t") g).1 = r ∧ (r.resolve (.ofTable "t") g).1 = r ∧
      r.eval (.ofTable "t") g = e.eval (.ofTable "t") g) ∧
    maker.Coherent g ∧ maker.Steady g ∧ (e.resolve maker g).1 = r' ∧
      r'.paramsUsed = e.paramsUsed ∧ (r'.resolve maker (e.resolve maker g).2).1 = r' ∧
      r'.eval maker (e.resolve maker g).2 = e.eval maker (e.resolve maker g).2 := by
  intro held e g maker r r'
  obtain ⟨hAll, hTables⟩ := resolve_replaces_names
  constructor
  · obtain ⟨hCoherent, hSteady, hAnswers, hRead⟩ := hTables g ⟨_, rfl⟩ "t"
    obtain ⟨-, -, hFind, hAgain, hEval⟩ := hAll (.ofTable "t") g e hCoherent
    have hKnown : (g.table "t").record? ⟨1⟩ = some ⟨⟨1⟩, 0⟩ := by decide +kernel
    have hUnknown : (g.table "t").record? ⟨7⟩ = none := by decide +kernel
    have hResolve : (e.resolve (.ofTable "t") g).1 = r := by
      rw [(hFind _ fun h answer => (hAnswers h answer).mp).2]
      simp only [e, r, withRecords, hKnown, hUnknown, Option.elim]
    rw [hResolve] at hAgain hEval
    exact ⟨hResolve, (hAgain hSteady).2 g .start, hEval g fun h s _ _ => hRead h s⟩
  · have hCoherent : maker.Coherent g := by
      rintro h s ⟨g', -, hAnswer⟩
      cases hAnswer
      rfl
    have hSteady : maker.Steady g := by
      rintro h a b ⟨_, -, rfl⟩ ⟨_, -, rfl⟩
      rfl
    have hResolve : (e.resolve maker g).1 = r' := rfl
    obtain ⟨⟨-, -, hUsed⟩, hReplaces, -, hAgain, hEval⟩ := hAll maker g e hCoherent
    rw [hResolve] at hUsed hAgain hEval
    have hLeads : maker.Leads g (e.resolve maker g).2 := (replaces_resolve .start e).2
    have hRead : ∀ s ∈ r'.records, (e.resolve maker g).2.read s = 4 := by
      intro s hMem
      simp only [r', records, List.nil_append, List.cons_append, List.mem_cons,
        List.not_mem_nil, or_false] at hMem
      obtain rfl | rfl | rfl := hMem <;> rfl
    exact ⟨hCoherent, hSteady, hResolve, hUsed, (hAgain hSteady).2 _ hLeads,
      hEval _ fun h s _ hMem _ => hRead s hMem⟩

end Formula
