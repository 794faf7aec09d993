import Mathlib.Data.List.Nodup
import Formula.Expr.Dependency

/-! Which nodes a walk calls a visitor at. Nodes are told apart by their addresses, because equal
subtrees can stand at several places. What the visitor answers may depend on all calls before, so
the calls are described together with the states between them. -/
namespace Formula

universe u

variable {σ : Type u}

namespace Expr

/-- The operands of the operator on top, from left to right. -/
def operands : Expr → List Expr
  | .binary _ left right => [left, right]
  | .unary _ operand => [operand]
  | _ => []

/-- The node at an address: the way down from the root, as the places among the operands. -/
def at? : Expr → List Nat → Option Expr
  | e, [] => some e
  | e, i :: address => e.operands[i]?.bind fun f => f.at? address

/-- The addresses of all nodes, each in front of those under it and these from left to right. -/
def addresses : Expr → List (List Nat)
  | .binary _ left right =>
    [] :: (left.addresses.map (0 :: ·) ++ right.addresses.map (1 :: ·))
  | .unary _ operand => [] :: operand.addresses.map (0 :: ·)
  | _ => [[]]

theorem nil_mem_addresses (e : Expr) : [] ∈ e.addresses := by
  cases e <;> exact List.mem_cons_self

/-- Below a node are the nodes of its operands. -/
theorem cons_mem_addresses_iff {e : Expr} {i : Nat} {address : List Nat} :
    i :: address ∈ e.addresses ↔ ∃ f, e.operands[i]? = some f ∧ address ∈ f.addresses := by
  cases e with
  | param h => simp [addresses, operands]
  | resolved r => simp [addresses, operands]
  | number x => simp [addresses, operands]
  | binary op left right =>
      rcases i with _ | _ | i <;> simp [addresses, operands]
  | unary op operand =>
      rcases i with _ | i <;> simp [addresses, operands]

/-- Different nodes have different addresses, even where the subtrees are equal. -/
theorem nodup_addresses (e : Expr) : e.addresses.Nodup := by
  induction e with
  | param h => simp [addresses]
  | resolved r => simp [addresses]
  | number x => simp [addresses]
  | binary op left right hLeft hRight =>
      refine List.nodup_cons.mpr ⟨by simp, ?_⟩
      refine List.nodup_append.mpr
        ⟨hLeft.map List.cons_injective, hRight.map List.cons_injective, ?_⟩
      simp
  | unary op operand hOperand =>
      exact List.nodup_cons.mpr ⟨by simp, hOperand.map List.cons_injective⟩

end Expr

/-- One call of a visitor: the node, the state that it is called in, and its answer, which says
whether to go on below the node and what the new state is. -/
structure Visit (σ : Type u) where
  node : Expr
  before : σ
  goesOn : Bool
  after : σ

namespace Visitor

/-- The call for a node: that for nodes of its kind, with what the node holds. -/
def call (v : Visitor σ) : Expr → σ → Bool × σ
  | .param h => v.param h
  | .resolved r => v.resolved r
  | .number x => v.number x
  | .binary op left right => v.binary op left right
  | .unary op operand => v.unary op operand

/-- The call of a visitor at a node. -/
def visit (v : Visitor σ) (node : Expr) (before : σ) : Visit σ :=
  ⟨node, before, (v.call node before).1, (v.call node before).2⟩

/-- Calls a visitor at a node and writes the call down. -/
def record (v : Visitor σ) (node : Expr) (s : σ × List (Visit σ)) :
    Bool × (σ × List (Visit σ)) :=
  let visit := v.visit node s.1
  (visit.goesOn, visit.after, s.2 ++ [visit])

/-- The visitor that passes its calls on to another one and writes them down. -/
def recorder (v : Visitor σ) : Visitor (σ × List (Visit σ)) where
  param h := v.record (.param h)
  resolved r := v.record (.resolved r)
  number x := v.record (.number x)
  binary op left right := v.record (.binary op left right)
  unary op operand := v.record (.unary op operand)

/-- Each call is made in the state that the one before it left, the first one in `s`, and the last
one leaves `last`. -/
def Threads (v : Visitor σ) : σ → List (Visit σ) → σ → Prop
  | s, [], last => s = last
  | s, x :: calls, last => x = v.visit x.node s ∧ v.Threads x.after calls last

/-- The same visitor with other answers at leaves. -/
def withLeafAnswers (v : Visitor σ) (answer : Expr → σ → Bool) : Visitor σ where
  param h s := (answer (.param h) s, (v.param h s).2)
  resolved r s := (answer (.resolved r) s, (v.resolved r s).2)
  number x s := (answer (.number x) s, (v.number x s).2)
  binary := v.binary
  unary := v.unary

/-- Calls follow one another through the state that the first ones leave. -/
theorem threads_append {v : Visitor σ} {s middle last : σ} {first second : List (Visit σ)}
    (hFirst : v.Threads s first middle) (hSecond : v.Threads middle second last) :
    v.Threads s (first ++ second) last := by
  induction first generalizing s with
  | nil =>
      cases hFirst
      exact hSecond
  | cons x first ih => exact ⟨hFirst.1, ih hFirst.2⟩

end Visitor

namespace Expr

/-- Calls in the operand with the given place, with their addresses from the root. -/
def under (i : Nat) (calls : List (List Nat × Visit σ)) : List (List Nat × Visit σ) :=
  calls.map fun x => (i :: x.1, x.2)

/-- The calls of a walk with the addresses of their nodes. -/
def visits (v : Visitor σ) : Expr → σ → List (List Nat × Visit σ)
  | .param h, s => [([], v.visit (.param h) s)]
  | .resolved r, s => [([], v.visit (.resolved r) s)]
  | .number x, s => [([], v.visit (.number x) s)]
  | .binary op left right, s =>
    let root := v.visit (.binary op left right) s
    ([], root) ::
      if root.goesOn then
        under 0 (left.visits v root.after) ++ under 1 (right.visits v (left.walk v root.after))
      else []
  | .unary op operand, s =>
    let root := v.visit (.unary op operand) s
    ([], root) :: if root.goesOn then under 0 (operand.visits v root.after) else []

variable {v : Visitor σ}

section Under

variable {i : Nat} {calls : List (List Nat × Visit σ)}

theorem map_fst_under : (under i calls).map (·.1) = (calls.map (·.1)).map (i :: ·) := by
  simp [under]

theorem map_snd_under : (under i calls).map (·.2) = calls.map (·.2) := by
  simp [under]

theorem under_map (f : Visit σ → Visit σ) :
    under i (calls.map fun x => (x.1, f x.2)) = (under i calls).map fun x => (x.1, f x.2) := by
  simp [under]

theorem mem_under_iff {j : Nat} {address : List Nat} {x : Visit σ} :
    (j :: address, x) ∈ under i calls ↔ i = j ∧ (address, x) ∈ calls := by
  simp only [under, List.mem_map, Prod.exists, Prod.mk.injEq, List.cons.injEq]
  constructor
  · rintro ⟨_, _, hMem, ⟨hPlace, rfl⟩, rfl⟩
    exact ⟨hPlace, hMem⟩
  · rintro ⟨hPlace, hMem⟩
    exact ⟨address, x, hMem, ⟨hPlace, rfl⟩, rfl⟩

theorem nil_not_mem_under {x : Visit σ} : ([], x) ∉ under i calls := by
  simp [under]

end Under

theorem walk_binary (v : Visitor σ) (op : BinaryOp) (left right : Expr) (s : σ) :
    (binary op left right).walk v s =
      let root := v.visit (.binary op left right) s
      if root.goesOn then right.walk v (left.walk v root.after) else root.after := rfl

theorem walk_unary (v : Visitor σ) (op : UnaryOp) (operand : Expr) (s : σ) :
    (unary op operand).walk v s =
      let root := v.visit (.unary op operand) s
      if root.goesOn then operand.walk v root.after else root.after := rfl

/-- A recorder answers as the visitor does and keeps the call in its log. -/
theorem visit_recorder (v : Visitor σ) (e : Expr) (s : σ) (log : List (Visit σ)) :
    v.recorder.visit e (s, log) =
      ⟨e, (s, log), (v.visit e s).goesOn, (v.visit e s).after, log ++ [v.visit e s]⟩ := by
  cases e <;> rfl

/-- A recorder writes down the calls of the walk, in order, and the walk goes on as without it. -/
theorem walk_recorder (v : Visitor σ) (e : Expr) (s : σ) (log : List (Visit σ)) :
    e.walk v.recorder (s, log) = (e.walk v s, log ++ (e.visits v s).map (·.2)) := by
  induction e generalizing s log with
  | param h => rfl
  | resolved r => rfl
  | number x => rfl
  | binary op left right hLeft hRight =>
      simp only [walk_binary, visit_recorder, visits]
      cases (v.visit (.binary op left right) s).goesOn with
      | false => rfl
      | true => simp [hLeft, hRight, map_snd_under]
  | unary op operand hOperand =>
      simp only [walk_unary, visit_recorder, visits]
      cases (v.visit (.unary op operand) s).goesOn with
      | false => rfl
      | true => simp [hOperand, map_snd_under]

/-- The state runs through all calls of a walk, from left to right. -/
theorem threads_visits (v : Visitor σ) (e : Expr) (s : σ) :
    v.Threads s ((e.visits v s).map (·.2)) (e.walk v s) := by
  induction e generalizing s with
  | param h => exact ⟨rfl, rfl⟩
  | resolved r => exact ⟨rfl, rfl⟩
  | number x => exact ⟨rfl, rfl⟩
  | binary op left right hLeft hRight =>
      simp only [walk_binary, visits, List.map_cons]
      refine ⟨rfl, ?_⟩
      cases (v.visit (.binary op left right) s).goesOn with
      | false => rfl
      | true =>
          simp only [if_true, List.map_append, map_snd_under]
          exact Visitor.threads_append (hLeft _) (hRight _)
  | unary op operand hOperand =>
      simp only [walk_unary, visits, List.map_cons]
      refine ⟨rfl, ?_⟩
      cases (v.visit (.unary op operand) s).goesOn with
      | false => rfl
      | true =>
          simp only [if_true, map_snd_under]
          exact hOperand _

/-- Calls are made in the order of the addresses, some of which are left out. -/
theorem sublist_addresses (v : Visitor σ) (e : Expr) (s : σ) :
    ((e.visits v s).map (·.1)).Sublist e.addresses := by
  induction e generalizing s with
  | param h => exact .refl _
  | resolved r => exact .refl _
  | number x => exact .refl _
  | binary op left right hLeft hRight =>
      refine .cons_cons [] ?_
      cases (v.visit (.binary op left right) s).goesOn with
      | false => exact List.nil_sublist _
      | true =>
          simp only [if_true, List.map_append, map_fst_under]
          exact ((hLeft _).map _).append ((hRight _).map _)
  | unary op operand hOperand =>
      refine .cons_cons [] ?_
      cases (v.visit (.unary op operand) s).goesOn with
      | false => exact List.nil_sublist _
      | true =>
          simp only [if_true, map_fst_under]
          exact (hOperand _).map _

/-- The root is always visited, in the state that the walk starts with. -/
theorem nil_mem_visits_iff {e : Expr} {s : σ} {x : Visit σ} :
    ([], x) ∈ e.visits v s ↔ x = v.visit e s := by
  cases e with
  | param h => simp [visits]
  | resolved r => simp [visits]
  | number y => simp [visits]
  | binary op left right => simp [visits, nil_not_mem_under]
  | unary op operand => simp [visits, nil_not_mem_under]

/-- The calls below a node are those of a walk through one of its operands, in the state that the
walk gets there with. They are made if the call at the node answers so. -/
theorem exists_visits_operand {e f : Expr} {i : Nat} (hPlace : e.operands[i]? = some f) (s : σ) :
    ∃ there, ∀ address x, (i :: address, x) ∈ e.visits v s ↔
      (v.visit e s).goesOn = true ∧ (address, x) ∈ f.visits v there := by
  cases e with
  | param h => cases hPlace
  | resolved r => cases hPlace
  | number y => cases hPlace
  | binary op left right =>
      rcases i with _ | _ | i
      · obtain rfl : left = f := Option.some.inj hPlace
        refine ⟨(v.visit (.binary op left right) s).after, fun address x => ?_⟩
        simp [visits, mem_under_iff]
      · obtain rfl : right = f := Option.some.inj hPlace
        refine ⟨left.walk v (v.visit (.binary op left right) s).after, fun address x => ?_⟩
        simp [visits, mem_under_iff]
      · cases hPlace
  | unary op operand =>
      rcases i with _ | i
      · obtain rfl : operand = f := Option.some.inj hPlace
        refine ⟨(v.visit (.unary op operand) s).after, fun address x => ?_⟩
        simp [visits, mem_under_iff]
      · cases hPlace

theorem mem_addresses_of_mem_visits {e : Expr} {s : σ} {address : List Nat} {x : Visit σ}
    (hMem : (address, x) ∈ e.visits v s) : address ∈ e.addresses :=
  (sublist_addresses v e s).subset (List.mem_map_of_mem hMem)

/-- Every call is made for the node at its address. -/
theorem at?_of_mem_visits {e : Expr} {s : σ} {address : List Nat} {x : Visit σ}
    (hMem : (address, x) ∈ e.visits v s) : e.at? address = some x.node := by
  induction address generalizing e s with
  | nil =>
      cases nil_mem_visits_iff.mp hMem
      rfl
  | cons i address ih =>
      obtain ⟨f, hPlace, -⟩ := cons_mem_addresses_iff.mp (mem_addresses_of_mem_visits hMem)
      obtain ⟨there, hBelow⟩ := exists_visits_operand (v := v) hPlace s
      rw [at?, hPlace]
      exact ih ((hBelow address x).mp hMem).2

/-- A node is visited when the calls at all nodes above it answer to go on. -/
theorem exists_mem_visits_iff {e : Expr} {s : σ} {address : List Nat} :
    (∃ x, (address, x) ∈ e.visits v s) ↔
      address ∈ e.addresses ∧ ∀ above, above <+: address → above ≠ address →
        ∃ x, (above, x) ∈ e.visits v s ∧ x.goesOn = true := by
  induction address generalizing e s with
  | nil =>
      constructor
      · intro _
        refine ⟨e.nil_mem_addresses, fun above hPrefix hOther => ?_⟩
        exact absurd (List.prefix_nil.mp hPrefix) hOther
      · intro _
        exact ⟨_, nil_mem_visits_iff.mpr rfl⟩
  | cons i address ih =>
      constructor
      · rintro ⟨x, hMem⟩
        have hAddress := mem_addresses_of_mem_visits hMem
        obtain ⟨f, hPlace, -⟩ := cons_mem_addresses_iff.mp hAddress
        obtain ⟨there, hBelow⟩ := exists_visits_operand (v := v) hPlace s
        obtain ⟨hGoesOn, hInner⟩ := (hBelow address x).mp hMem
        refine ⟨hAddress, fun above hPrefix hOther => ?_⟩
        rcases List.prefix_cons_iff.mp hPrefix with rfl | ⟨inner, rfl, hInnerPrefix⟩
        · exact ⟨_, nil_mem_visits_iff.mpr rfl, hGoesOn⟩
        · have hInnerOther : inner ≠ address := fun hSame => hOther (congrArg _ hSame)
          obtain ⟨y, hAbove, hAnswer⟩ := (ih.mp ⟨x, hInner⟩).2 inner hInnerPrefix hInnerOther
          exact ⟨y, (hBelow inner y).mpr ⟨hGoesOn, hAbove⟩, hAnswer⟩
      · rintro ⟨hAddress, hAll⟩
        obtain ⟨f, hPlace, hInnerAddress⟩ := cons_mem_addresses_iff.mp hAddress
        obtain ⟨there, hBelow⟩ := exists_visits_operand (v := v) hPlace s
        obtain ⟨root, hRoot, hGoesOn⟩ := hAll [] List.nil_prefix (List.cons_ne_nil i address).symm
        cases nil_mem_visits_iff.mp hRoot
        have hInner : ∃ x, (address, x) ∈ f.visits v there := by
          refine ih.mpr ⟨hInnerAddress, fun above hPrefix hOther => ?_⟩
          obtain ⟨y, hAbove, hAnswer⟩ := hAll (i :: above)
            (List.cons_prefix_cons.mpr ⟨rfl, hPrefix⟩) fun hSame => hOther (List.cons.inj hSame).2
          exact ⟨y, ((hBelow above y).mp hAbove).2, hAnswer⟩
        obtain ⟨x, hMem⟩ := hInner
        exact ⟨x, (hBelow address x).mpr ⟨hGoesOn, hMem⟩⟩

theorem visit_withLeafAnswers_binary (answer : Expr → σ → Bool) (op : BinaryOp)
    (left right : Expr) : (v.withLeafAnswers answer).visit (.binary op left right) =
      v.visit (.binary op left right) := rfl

theorem visit_withLeafAnswers_unary (answer : Expr → σ → Bool) (op : UnaryOp) (operand : Expr) :
    (v.withLeafAnswers answer).visit (.unary op operand) = v.visit (.unary op operand) := rfl

/-- What a visitor answers at leaves leads nowhere else. -/
theorem walk_withLeafAnswers (answer : Expr → σ → Bool) (e : Expr) (s : σ) :
    e.walk (v.withLeafAnswers answer) s = e.walk v s := by
  induction e generalizing s with
  | param h => rfl
  | resolved r => rfl
  | number x => rfl
  | binary op left right hLeft hRight =>
      simp only [walk_binary, visit_withLeafAnswers_binary, hLeft, hRight]
  | unary op operand hOperand =>
      simp only [walk_unary, visit_withLeafAnswers_unary, hOperand]

/-- Other answers at leaves change these answers and nothing else. -/
theorem visits_withLeafAnswers (answer : Expr → σ → Bool) (e : Expr) (s : σ) :
    e.visits (v.withLeafAnswers answer) s = (e.visits v s).map fun x =>
      (x.1, (v.withLeafAnswers answer).visit x.2.node x.2.before) := by
  induction e generalizing s with
  | param h => rfl
  | resolved r => rfl
  | number x => rfl
  | binary op left right hLeft hRight =>
      simp only [visits, visit_withLeafAnswers_binary, walk_withLeafAnswers, hLeft, hRight,
        under_map fun x => (v.withLeafAnswers answer).visit x.node x.before, List.map_cons]
      cases (v.visit (.binary op left right) s).goesOn with
      | false => rfl
      | true => simp only [if_true, List.map_append]; rfl
  | unary op operand hOperand =>
      simp only [visits, visit_withLeafAnswers_unary, hOperand,
        under_map fun x => (v.withLeafAnswers answer).visit x.node x.before, List.map_cons]
      cases (v.visit (.unary op operand) s).goesOn with
      | false => rfl
      | true => rfl

end Expr

open Formula.Expr

/-- A walk calls its visitor at the nodes above which all calls answer to go on, at each of them
once and in the order of the addresses. The calls are those for the kinds of the nodes, with what
the nodes hold, each in the state that the call before it left. Other answers at leaves change
nothing but these answers. -/
theorem walk_visits (v : Visitor σ) (e : Expr) (s : σ) :
    ∃ visits : List (List Nat × Visit σ),
      e.walk v.recorder (s, []) = (e.walk v s, visits.map (·.2)) ∧
      v.Threads s (visits.map (·.2)) (e.walk v s) ∧
      (visits.map (·.1)).Sublist e.addresses ∧ (visits.map (·.1)).Nodup ∧
      (∀ address x, (address, x) ∈ visits → e.at? address = some x.node) ∧
      (∀ address, (∃ x, (address, x) ∈ visits) ↔
        address ∈ e.addresses ∧ ∀ above, above <+: address → above ≠ address →
          ∃ x, (above, x) ∈ visits ∧ x.goesOn = true) ∧
      ∀ answer, e.walk (v.withLeafAnswers answer).recorder (s, []) =
        (e.walk v s, visits.map fun x =>
          (v.withLeafAnswers answer).visit x.2.node x.2.before) := by
  have hOrder := sublist_addresses v e s
  refine ⟨e.visits v s, walk_recorder v e s [], threads_visits v e s, hOrder,
    e.nodup_addresses.sublist hOrder, fun address x => at?_of_mem_visits,
    fun address => exists_mem_visits_iff, fun answer => ?_⟩
  rw [walk_recorder, walk_withLeafAnswers, visits_withLeafAnswers, List.map_map]
  rfl

/-- A search that has found its parameter does not look below the sine any more. -/
theorem walk_visits_of_search :
    let v := dependencyFinder ⟨1⟩
    let e : Expr :=
      .binary .mul (.binary .add (.param ⟨1⟩) (.unary .sin (.param ⟨2⟩))) (.number 3)
    ∃ visits : List (List Nat × Visit Bool),
      e.walk v.recorder (false, []) = (true, visits.map (·.2)) ∧
        [0, 1, 0] ∈ e.addresses ∧ ∀ x, ([0, 1, 0], x) ∉ visits := by
  intro v e
  obtain ⟨visits, hLog, -, -, -, hNode, hVisited, -⟩ := walk_visits v e false
  refine ⟨visits, hLog, by decide, fun x hMem => ?_⟩
  obtain ⟨sine, hSine, hGoesOn⟩ :=
    ((hVisited [0, 1, 0]).mp ⟨x, hMem⟩).2 [0, 1] (by decide) (by decide)
  have hCalls : visits.map (·.2) =
      [⟨e, false, true, false⟩,
        ⟨.binary .add (.param ⟨1⟩) (.unary .sin (.param ⟨2⟩)), false, true, false⟩,
        ⟨.param ⟨1⟩, false, false, true⟩, ⟨.unary .sin (.param ⟨2⟩), true, false, true⟩,
        ⟨.number 3, true, false, true⟩] := (congrArg (·.2) hLog).symm
  have hCall : sine ∈ visits.map (·.2) := List.mem_map_of_mem hSine
  rw [hCalls] at hCall
  have hAt := hNode _ _ hSine
  simp only [List.mem_cons, List.not_mem_nil, or_false] at hCall
  rcases hCall with rfl | rfl | rfl | rfl | rfl
  · cases hAt
  · cases hAt
  · cases hGoesOn
  · cases hGoesOn
  · cases hGoesOn

end Formula
