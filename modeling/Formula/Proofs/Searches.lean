import Mathlib
import Formula.Proofs.Leaves

/-! Searches that stop early against walks that see everything. Each of them answers by the leaves
of the expression, so they agree with each other; and one walk after another gathers what the
expressions have together. -/
namespace Formula

namespace Expr

universe u

/-- State of one visitor after walks through several expressions, one after the other. -/
def walkAll {σ : Type u} (v : Visitor σ) (es : List Expr) (s : σ) : σ :=
  es.foldl (fun s e => e.walk v s) s

theorem paramsUsed_ascending (e : Expr) : e.paramsUsed.Pairwise (·.id < ·.id) := by
  have hOrdered : e.paramsUsed.Pairwise fun h k => compare h k = .lt := Std.TreeSet.ordered_toList
  exact hOrdered.imp Handle.id_lt_id

/-- The list of parameters is told by which of them occur, since it is in order. -/
theorem paramsUsed_eq_iff (e f : Expr) :
    e.paramsUsed = f.paramsUsed ↔ ∀ p, e.Mentions p ↔ f.Mentions p := by
  simp only [← mem_paramsUsed_iff]
  constructor
  · intro hSame p
    rw [hSame]
  · have hIrrefl : Std.Irrefl fun h k : Handle => h.id < k.id := ⟨fun h => UInt32.lt_irrefl h.id⟩
    have hAntisymm : Std.Antisymm fun h k : Handle => h.id < k.id :=
      ⟨fun h k hLess hGreater => absurd hGreater (UInt32.lt_asymm hLess)⟩
    exact e.paramsUsed_ascending.eq_of_mem_iff f.paramsUsed_ascending

/-- One count through several expressions. -/
theorem walkAll_nodeCounter (es : List Expr) (n : Nat) :
    walkAll nodeCounter es n = n + (es.map (·.nodeCount)).sum := by
  induction es generalizing n with
  | nil => rfl
  | cons e es ih =>
      calc
        walkAll nodeCounter (e :: es) n = walkAll nodeCounter es (e.walk nodeCounter n) := rfl
        _ = n + e.nodeCount + (es.map (·.nodeCount)).sum := by rw [ih, walk_nodeCounter]
        _ = n + ((e :: es).map (·.nodeCount)).sum := by
          rw [List.map_cons, List.sum_cons, Nat.add_assoc]

/-- One collection from several expressions. -/
theorem mem_walkAll_handleCollector (es : List Expr) (seen : Std.TreeSet Handle) (p : Handle) :
    p ∈ walkAll handleCollector es seen ↔ p ∈ seen ∨ ∃ e ∈ es, e.Mentions p := by
  induction es generalizing seen with
  | nil => simp [walkAll]
  | cons e es ih =>
      show p ∈ walkAll handleCollector es (e.walk handleCollector seen) ↔ _
      rw [ih, mem_walk_handleCollector, List.exists_mem_cons_iff, or_assoc]

/-- What is asked of an expression is answered by its leaves, wherever a search stops. A parameter
is searched for with the same outcome as in the list of all parameters, which names each of them
once and in ascending order. A count goes through several expressions as through each of them, and
a collection from several of them has the parameters of each of them and no others. -/
theorem dependsOn_iff_mem_paramsUsed :
    (∀ (e : Expr) (p : Handle), (e.dependsOn p = true ↔ p ∈ e.paramsUsed) ∧
      (p ∈ e.paramsUsed ↔ e.Names p ∨ ∃ r ∈ e.records, r.handle = p)) ∧
    (∀ e : Expr, (e.hasResolved = true ↔ ∃ r, r ∈ e.records) ∧
      e.paramsUsed.Pairwise (·.id < ·.id)) ∧
    ∀ es : List Expr,
      (∀ n, walkAll nodeCounter es n = n + (es.map (·.nodeCount)).sum) ∧
      ∀ seen p, p ∈ walkAll handleCollector es seen ↔
        p ∈ seen ∨ ∃ e ∈ es, p ∈ e.paramsUsed := by
  refine ⟨fun e p => ⟨?_, ?_⟩, fun e => ⟨?_, e.paramsUsed_ascending⟩,
    fun es => ⟨walkAll_nodeCounter es, fun seen p => ?_⟩⟩
  · rw [dependsOn_iff, mem_paramsUsed_iff]
  · rw [mem_paramsUsed_iff, mentions_iff]
  · rw [hasResolved_iff, ← records_eq_nil_iff]
    exact ⟨List.exists_mem_of_ne_nil e.records, fun ⟨_, hMem⟩ => List.ne_nil_of_mem hMem⟩
  · simp only [mem_walkAll_handleCollector, mem_paramsUsed_iff]

end Expr

end Formula
