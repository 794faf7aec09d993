import Formula.Proofs.Acceptance

/-! How much room a sentence needs on the operator stack, told factor by factor. While the core of a
factor is read, two binary operators of its group can wait for it at most, one in the sum and one in
the product, and every operator in front of the core. A core in parentheses needs its own room on
top of these. -/
namespace Formula.Grammar

/-- The products of a sum, from left to right. -/
def Sum.products : Sum → List Product
  | .single p => [p]
  | .join s _ p => s.products ++ [p]

/-- The factors of a product, from left to right. -/
def Product.factors : Product → List Factor
  | .single f => [f]
  | .join p _ f => p.factors ++ [f]

/-- Count of the operators in front of the core of a factor. -/
def Factor.prefixCount : Factor → Nat
  | .number _ | .group _ => 0
  | .prefixed _ f => f.prefixCount + 1

/-- Room that the core of a factor needs: a number needs none, and a group as much as its sum. -/
def Factor.coreNeed : Factor → Nat
  | .number _ => 0
  | .group s => s.need
  | .prefixed _ f => f.coreNeed

/-- Whether an operator stands between what has this index and what is in front of it. -/
def joined (index : Nat) : Nat := if index = 0 then 0 else 1

/-- Room for each factor of a product that has the given index in its sum. -/
def Product.demands (index : Nat) (p : Product) : List Nat :=
  p.factors.zipIdx.map fun (f, place) => joined index + joined place + f.prefixCount + f.coreNeed

/-- Room for each factor of a sum at the sum's own level, above the marker of its group. -/
def Sum.demands (s : Sum) : List Nat :=
  s.products.zipIdx.flatMap fun (p, index) => p.demands index

mutual

/-- No operator stands in front of an operand of the sum. -/
def Sum.Bare : Sum → Prop
  | .single p => p.Bare
  | .join s _ p => s.Bare ∧ p.Bare

/-- No operator stands in front of an operand of the product. -/
def Product.Bare : Product → Prop
  | .single f => f.Bare
  | .join p _ f => p.Bare ∧ f.Bare

/-- No operator stands in front of an operand of the factor, or of the factor itself. -/
def Factor.Bare : Factor → Prop
  | .number _ => True
  | .group s => s.Bare
  | .prefixed _ _ => False

end

theorem foldr_max_append (xs ys : List Nat) :
    (xs ++ ys).foldr max 0 = max (xs.foldr max 0) (ys.foldr max 0) := by
  have hBehind : xs.foldr max (max 0 (ys.foldr max 0)) =
      max (xs.foldr max 0) (ys.foldr max 0) := List.foldr_assoc
  rw [List.foldr_append, ← hBehind, Nat.zero_max]

theorem joined_of_pos {index : Nat} (hLater : 0 < index) : joined index = 1 :=
  if_neg (Nat.ne_of_gt hLater)

/-- The operators in front of a factor all wait while its core is read. -/
theorem Factor.peak_one (f : Factor) : f.peak 1 = f.prefixCount + f.coreNeed := by
  cases f with
  | number x => rfl
  | group s => simp [Factor.peak, Factor.prefixCount, Factor.coreNeed, Sum.need]
  | prefixed op f =>
      have hInner := Factor.peak_one f
      simp only [Factor.peak, Factor.prefixCount, Factor.coreNeed]
      omega

theorem Product.factors_length_pos (p : Product) : 0 < p.factors.length := by
  cases p <;> simp [Product.factors]

theorem Sum.products_length_pos (s : Sum) : 0 < s.products.length := by
  cases s <;> simp [Sum.products]

theorem Product.demands_join (index : Nat) (p : Product) (op : ProductOp) (f : Factor) :
    (Product.join p op f).demands index = p.demands index ++ [joined index + 1 + f.peak 1] := by
  have hPlace := joined_of_pos p.factors_length_pos
  simp [demands, factors, List.zipIdx_append, hPlace, f.peak_one, Nat.add_assoc]

/-- Another product of a sum has the next index. -/
theorem Sum.demands_join (s : Sum) (op : SumOp) (p : Product) :
    (Sum.join s op p).demands = s.demands ++ p.demands s.products.length := by
  simp [demands, products, List.zipIdx_append]

/-- The largest demand among the factors of a product is its peak, with the operator of the sum that
waits for it. -/
theorem Product.foldr_demands (index : Nat) (p : Product) :
    (p.demands index).foldr max 0 = joined index + p.peak 1 := by
  cases p with
  | single f => simp [demands, factors, joined, Product.peak, f.peak_one, Nat.add_assoc]
  | join p op f =>
      have hBefore := Product.foldr_demands index p
      rw [demands_join, foldr_max_append, hBefore]
      simp only [List.foldr_cons, List.foldr_nil, Product.peak]
      omega

/-- The largest demand among the factors of a sum is its peak. -/
theorem Sum.foldr_demands (s : Sum) : s.demands.foldr max 0 = s.peak 1 := by
  cases s with
  | single p => simp [demands, products, Product.foldr_demands, joined, Sum.peak]
  | join s op p =>
      have hBefore := Sum.foldr_demands s
      rw [demands_join, foldr_max_append, hBefore, Product.foldr_demands,
        joined_of_pos s.products_length_pos, Sum.peak]

/-- A sentence needs room for its own marker and for the most demanding of its factors. -/
theorem Sum.need_eq (s : Sum) : s.need = 1 + s.demands.foldr max 0 := by
  rw [foldr_demands, need]

mutual

/-- Without operators in front of operands, each group adds its marker and two binary operators. -/
theorem Sum.peak_le_of_bare (s : Sum) (hBare : s.Bare) : s.peak 1 ≤ 3 * s.nesting + 2 := by
  cases s with
  | single p =>
      have hProduct := Product.peak_le_of_bare p hBare
      simp only [Sum.peak, Sum.nesting]
      omega
  | join s op p =>
      have hSum := Sum.peak_le_of_bare s hBare.1
      have hProduct := Product.peak_le_of_bare p hBare.2
      simp only [Sum.peak, Sum.nesting]
      omega

theorem Product.peak_le_of_bare (p : Product) (hBare : p.Bare) :
    p.peak 1 ≤ 3 * p.nesting + 1 := by
  cases p with
  | single f =>
      have hFactor := Factor.peak_le_of_bare f hBare
      simp only [Product.peak, Product.nesting]
      omega
  | join p op f =>
      have hProduct := Product.peak_le_of_bare p hBare.1
      have hFactor := Factor.peak_le_of_bare f hBare.2
      simp only [Product.peak, Product.nesting]
      omega

theorem Factor.peak_le_of_bare (f : Factor) (hBare : f.Bare) : f.peak 1 ≤ 3 * f.nesting := by
  cases f with
  | number x => exact Nat.zero_le _
  | group s =>
      have hSum := Sum.peak_le_of_bare s hBare
      simp only [Factor.peak, Factor.nesting]
      omega
  | prefixed op f => exact hBare.elim

end

mutual

/-- A minus sign is the only written form of a negation. -/
theorem Sum.neg_not_mem_kinds (s : Sum) : .operator (.prefixed .neg) ∉ s.kinds := by
  cases s with
  | single p => exact Product.neg_not_mem_kinds p
  | join s op p =>
      have hLeft := Sum.neg_not_mem_kinds s
      have hRight := Product.neg_not_mem_kinds p
      simp [Sum.kinds, hLeft, hRight]

theorem Product.neg_not_mem_kinds (p : Product) : .operator (.prefixed .neg) ∉ p.kinds := by
  cases p with
  | single f => exact Factor.neg_not_mem_kinds f
  | join p op f =>
      have hLeft := Product.neg_not_mem_kinds p
      have hRight := Factor.neg_not_mem_kinds f
      simp [Product.kinds, hLeft, hRight]

theorem Factor.neg_not_mem_kinds (f : Factor) : .operator (.prefixed .neg) ∉ f.kinds := by
  cases f with
  | number x => simp [Factor.kinds]
  | group s =>
      have hInner := Sum.neg_not_mem_kinds s
      simp [Factor.kinds, hInner]
  | prefixed op f =>
      have hInner := Factor.neg_not_mem_kinds f
      cases op <;> simp [Factor.kinds, prefixKind, hInner]

end

end Formula.Grammar

namespace Formula

open Grammar

/-- What a sentence asks of the limits. Its tokens are read when the limits have room for its open
groups and for what it needs on the operator stack, and then as the expression that it stands for.
The need is one entry for the marker of a group and, on top of it, the largest demand of a factor
of the group; it is never more than the sentence has tokens, nor, without operators in front of
operands, more than three entries for each group and three for the whole. -/
theorem ofTokens_eq_ok_iff_room (s : Sum) (tokens : List Token)
    (hKinds : tokens.map (·.kind) = s.kinds) :
    (∀ t : Sum, t.kinds = tokens.map (·.kind) → t = s) ∧
    (∀ t : Sum, t.need = 1 + t.demands.foldr max 0) ∧
    (∀ limits e, Expr.ofTokens limits tokens = .ok e ↔
      e = s.expr ∧ s.nesting ≤ limits.maxDepth ∧ s.need ≤ limits.stackCapacity) ∧
    s.need ≤ tokens.length ∧
    (s.Bare → s.need ≤ 3 * (s.nesting + 1)) := by
  have hUnique (t : Sum) (hOther : t.kinds = tokens.map (·.kind)) : t = s :=
    Sum.kinds_injective (hOther.trans hKinds)
  refine ⟨hUnique, Sum.need_eq, ?_, ?_, ?_⟩
  · intro limits e
    have hWritten : .operator (.prefixed .neg) ∉ tokens.map (·.kind) := by
      rw [hKinds]
      exact s.neg_not_mem_kinds
    rw [Expr.ofTokens_eq_ok_iff limits tokens e hWritten]
    constructor
    · rintro ⟨t, hOther, rfl, hNeed, hNesting⟩
      obtain rfl := hUnique t hOther
      exact ⟨rfl, hNesting, hNeed⟩
    · rintro ⟨rfl, hNesting, hNeed⟩
      exact ⟨s, hKinds.symm, rfl, hNeed, hNesting⟩
  · have hNeed := s.need_le_length
    rw [← hKinds, List.length_map] at hNeed
    exact hNeed
  · intro hBare
    have hPeak := s.peak_le_of_bare hBare
    rw [Sum.need]
    omega

/-- Two groups that each wait at the right of a sum for the right of a product fill the bound: six
entries are enough for `1 + 2 * (1 + 2 * 3)`, and five are not. -/
theorem ofTokens_room_of_two_groups :
    let chain (f : Factor) : Sum :=
      .join (.single (.single (.number 1))) .plus (.join (.single (.number 2)) .times f)
    let s := chain (.group (chain (.number 3)))
    let tokens : List Token := s.kinds.map fun k => ⟨k, ⟨0, 0⟩⟩
    tokens.map (·.kind) = s.kinds ∧ s.Bare ∧ s.nesting = 1 ∧
      s.demands = [0, 1, 5] ∧
      Expr.ofTokens { stackCapacity := 6, maxDepth := 1 } tokens = .ok s.expr ∧
      (∀ e, Expr.ofTokens { stackCapacity := 5, maxDepth := 1 } tokens ≠ .ok e) ∧
      s.need = 3 * (s.nesting + 1) := by
  intro chain s tokens
  have hKinds : tokens.map (·.kind) = s.kinds := by
    rw [List.map_map]
    exact List.map_id _
  have hBare : s.Bare := by simp [s, chain, Sum.Bare, Product.Bare, Factor.Bare]
  obtain ⟨-, hNeed, hRead, -, hBound⟩ := ofTokens_eq_ok_iff_room s tokens hKinds
  have hSix : s.need = 6 := by rw [hNeed]; rfl
  refine ⟨hKinds, hBare, rfl, rfl, ?_, ?_, ?_⟩
  · exact (hRead _ _).mpr ⟨rfl, Nat.le_refl 1, Nat.le_of_eq hSix⟩
  · intro e hOk
    have hRoom := ((hRead _ e).mp hOk).2.2
    rw [hSix] at hRoom
    exact absurd hRoom (by decide)
  · exact Nat.le_antisymm (hBound hBare) (Nat.le_of_eq hSix.symm)

end Formula
