import Formula.Proofs.Reading

/-! How much waits at each place of a sentence. Open groups and waiting operators are counted
together, an operator with a weight: with weight one this is the height of the operator stack,
with weight zero the depth of the parentheses. -/
namespace Formula.Grammar

mutual

/-- Most that waits at one place of a sum, without the marker of its own group. -/
def Sum.peak (weight : Nat) : Sum → Nat
  | .single p => p.peak weight
  | .join s _ p => max (s.peak weight) (weight + p.peak weight)

/-- Most that waits at one place of a product. -/
def Product.peak (weight : Nat) : Product → Nat
  | .single f => f.peak weight
  | .join p _ f => max (p.peak weight) (weight + f.peak weight)

/-- Most that waits at one place of a factor. -/
def Factor.peak (weight : Nat) : Factor → Nat
  | .number _ => 0
  | .group s => 1 + s.peak weight
  | .prefixed _ f => weight + f.peak weight

end

/-- Entries that the operator stack has to hold for a sentence. -/
def Sum.need (s : Sum) : Nat := 1 + s.peak 1

/-- Operators that wait in a chain. -/
def Chain.load (weight : Nat) (c : Chain) : Nat :=
  (c.sum?.elim 0 fun _ => weight) + c.product?.elim 0 fun _ => weight

/-- What waits in one group: its marker, the operators of its chain, and those in front of an
operand. -/
def Level.load (weight : Nat) (l : Level) : Nat :=
  1 + l.toChain.load weight + l.prefixes.length * weight

/-- What waits in the groups around the innermost one. -/
def outerLoad (weight : Nat) : List Level → Nat
  | [] => 0
  | l :: outer => l.load weight + outerLoad weight outer

/-- What waits in all open groups of a reading. -/
def Reading.load (weight : Nat) : Reading → Nat
  | .due l outer => l.load weight + outerLoad weight outer
  | .done c outer _ => (Level.mk c []).load weight + outerLoad weight outer

/-- Reading on from `r`, no step leads to more load than the room. -/
def Reading.Within (weight room : Nat) (r : Reading) : List TokenKind → Prop
  | [] => True
  | k :: kinds => ∀ next, r.step k = some next →
      next.load weight ≤ room ∧ next.Within weight room kinds

variable {weight room : Nat}

mutual

/-- Without weight the operators drop out and the depth of the parentheses is left. -/
theorem Sum.peak_zero (s : Sum) : s.peak 0 = s.nesting := by
  cases s with
  | single p => exact Product.peak_zero p
  | join s op p => simp [Sum.peak, Sum.nesting, Sum.peak_zero s, Product.peak_zero p]

theorem Product.peak_zero (p : Product) : p.peak 0 = p.nesting := by
  cases p with
  | single f => exact Factor.peak_zero f
  | join p op f => simp [Product.peak, Product.nesting, Product.peak_zero p, Factor.peak_zero f]

theorem Factor.peak_zero (f : Factor) : f.peak 0 = f.nesting := by
  cases f with
  | number x => rfl
  | group s => rw [Factor.peak, Factor.nesting, Sum.peak_zero s, Nat.add_comm]
  | prefixed op f => simp [Factor.peak, Factor.nesting, Factor.peak_zero f]

end

mutual

/-- The operand of an innermost operator or group is a token that puts nothing on a stack. -/
theorem Sum.need_le_length (s : Sum) : s.need ≤ s.kinds.length := by
  cases s with
  | single p => exact Product.need_le_length p
  | join s op p =>
      have hLeft := Sum.need_le_length s
      have hRight := Product.need_le_length p
      simp only [Sum.need, Sum.peak, Sum.kinds, List.length_append, List.length_cons] at *
      omega

theorem Product.need_le_length (p : Product) : 1 + p.peak 1 ≤ p.kinds.length := by
  cases p with
  | single f => exact Factor.need_le_length f
  | join p op f =>
      have hLeft := Product.need_le_length p
      have hRight := Factor.need_le_length f
      simp only [Product.peak, Product.kinds, List.length_append, List.length_cons]
      omega

theorem Factor.need_le_length (f : Factor) : 1 + f.peak 1 ≤ f.kinds.length := by
  cases f with
  | number x => exact Nat.le_refl 1
  | group s =>
      have hInner := Sum.need_le_length s
      simp only [Sum.need, Factor.peak, Factor.kinds, List.cons_append, List.length_cons,
        List.length_append] at *
      omega
  | prefixed op f =>
      have hInner := Factor.need_le_length f
      simp only [Factor.peak, Factor.kinds, List.length_cons]
      omega

end

namespace Reading

/-- At its start a reading has the marker of the whole expression and nothing else. -/
theorem load_start (weight : Nat) : start.load weight = 1 := by
  simp [start, load, outerLoad, Level.start, Level.load, Chain.empty, Chain.load]

theorem load_start_cons (l : Level) (outer : List Level) :
    (due .start (l :: outer)).load weight = 1 + (due l outer).load weight := by
  simp [load, outerLoad, Level.start, Level.load, Chain.empty, Chain.load]

/-- An operator in front of an operand waits for it. -/
theorem load_push (l : Level) (op : PrefixOp) (outer : List Level) :
    (due (l.push op) outer).load weight = weight + (due l outer).load weight := by
  simp only [load, Level.load, Level.push, List.length_cons, Nat.succ_mul]
  omega

/-- A sum that waits for another summand has its operator wait with it. -/
theorem load_sum (s : Sum) (op : SumOp) (outer : List Level) :
    (due ⟨⟨some (s, op), none⟩, []⟩ outer).load weight =
      weight + (due .start outer).load weight := by
  simp only [load, Level.start, Level.load, Chain.empty, Chain.load, Option.elim]
  omega

theorem load_product (sum? : Option (Sum × SumOp)) (p : Product) (op : ProductOp)
    (outer : List Level) :
    (due ⟨⟨sum?, some (p, op)⟩, []⟩ outer).load weight =
      weight + (due ⟨⟨sum?, none⟩, []⟩ outer).load weight := by
  simp only [load, Level.load, Chain.load, Option.elim]
  omega

/-- Behind a factor the operators in front of it do not wait any more. -/
theorem load_done_le (weight : Nat) (l : Level) (outer : List Level) (f : Factor) :
    (done l.toChain outer f).load weight ≤ (due l outer).load weight := by
  simp [load, Level.load]

/-- A step that exists decides about the load of what follows. -/
theorem within_cons {r next : Reading} {k : TokenKind} {kinds : List TokenKind}
    (hStep : r.step k = some next) :
    r.Within weight room (k :: kinds) ↔
      next.load weight ≤ room ∧ next.Within weight room kinds := by
  constructor
  · intro hWithin
    exact hWithin next hStep
  · intro hNext other hOther
    cases hStep.symm.trans hOther
    exact hNext

/-- A peak above a load that fits may be stated without saying that the load fits. -/
theorem and_peak {load peak : Nat} {rest whole : Prop}
    (hWhole : load ≤ room → (whole ↔ load + peak ≤ room ∧ rest)) :
    (load ≤ room ∧ whole) ↔ (load + peak ≤ room ∧ rest) := by
  constructor
  · rintro ⟨hLoad, h⟩
    exact (hWhole hLoad).mp h
  · rintro ⟨hPeak, hRest⟩
    have hLoad : load ≤ room := Nat.le_trans (Nat.le_add_right load peak) hPeak
    exact ⟨hLoad, (hWhole hLoad).mpr ⟨hPeak, hRest⟩⟩

mutual

/-- Reading a sum stays within the room if the peak of the sum does, wherever the sum stands. As for
what is read, there is one equivalence for each kind of syntax tree, with arbitrary tokens behind
it. -/
theorem within_sum (s : Sum) (outer : List Level) (rest : List TokenKind)
    (hStart : (due .start outer).load weight ≤ room) :
    (due .start outer).Within weight room (s.kinds ++ rest) ↔
      (due .start outer).load weight + s.peak weight ≤ room ∧
        (ofSum outer s).Within weight room rest := by
  cases s with
  | single p => exact within_product p none outer rest hStart
  | join s op p =>
      rw [Sum.kinds, List.append_assoc, within_sum s outer _ hStart, List.cons_append,
        within_cons (step_ofSum_plus outer s op), and_peak (within_product p _ outer rest),
        load_sum, ← and_assoc]
      refine and_congr_left fun _ => ?_
      simp only [Sum.peak]
      omega

theorem within_product (p : Product) (sum? : Option (Sum × SumOp)) (outer : List Level)
    (rest : List TokenKind) (hStart : (due ⟨⟨sum?, none⟩, []⟩ outer).load weight ≤ room) :
    (due ⟨⟨sum?, none⟩, []⟩ outer).Within weight room (p.kinds ++ rest) ↔
      (due ⟨⟨sum?, none⟩, []⟩ outer).load weight + p.peak weight ≤ room ∧
        (ofProduct sum? outer p).Within weight room rest := by
  cases p with
  | single f => exact within_factor f _ outer rest hStart
  | join p op f =>
      rw [Product.kinds, List.append_assoc, within_product p sum? outer _ hStart,
        List.cons_append, within_cons (step_ofProduct_times sum? outer p op),
        and_peak (within_factor f _ outer rest), load_product, ← and_assoc]
      refine and_congr_left fun _ => ?_
      simp only [Product.peak]
      omega

theorem within_factor (f : Factor) (l : Level) (outer : List Level) (rest : List TokenKind)
    (hStart : (due l outer).load weight ≤ room) :
    (due l outer).Within weight room (f.kinds ++ rest) ↔
      (due l outer).load weight + f.peak weight ≤ room ∧
        (done l.toChain outer (l.wrap f)).Within weight room rest := by
  have hDone (g : Factor) : (done l.toChain outer g).load weight ≤ room :=
    Nat.le_trans (load_done_le weight l outer g) hStart
  cases f with
  | number x =>
      rw [Factor.kinds, List.singleton_append, within_cons rfl]
      exact and_congr_left fun _ => ⟨fun _ => hStart, fun _ => hDone _⟩
  | group s =>
      have hKinds : (Factor.group s).kinds ++ rest =
          .openParen :: (s.kinds ++ .closeParen :: rest) := by simp [Factor.kinds]
      rw [hKinds, within_cons rfl, and_peak (within_sum s (l :: outer) _), load_start_cons,
        within_cons (step_ofSum_closeParen l outer s)]
      simp only [hDone, true_and, Factor.peak]
      exact and_congr_left fun _ => by omega
  | prefixed op f =>
      have hStep : (due l outer).step (prefixKind op) = some (due (l.push op) outer) := by
        cases op <;> rfl
      rw [Factor.kinds, List.cons_append, within_cons hStep,
        and_peak (within_factor f (l.push op) outer rest), load_push]
      simp only [Factor.peak]
      exact and_congr_left fun _ => by omega

end

/-- A sentence needs exactly its peak. -/
theorem within_start_sum (s : Sum) (hRoom : 0 < room) :
    start.Within weight room s.kinds ↔ 1 + s.peak weight ≤ room := by
  have hStart : (due .start []).load weight = 1 := load_start weight
  have hFirst : (due .start []).load weight ≤ room := Nat.le_trans (Nat.le_of_eq hStart) hRoom
  have hWithin := within_sum s [] [] hFirst
  rw [List.append_nil, hStart] at hWithin
  exact hWithin.trans (and_iff_left trivial)

/-- Going on with a binary operator makes one more operator wait at most; those that bind more
tightly are done. -/
theorem load_extend_le (weight : Nat) (c : Chain) (f : Factor) (op : BinaryOp) :
    (c.extend f op).load weight ≤ c.load weight + weight := by
  cases op <;>
    simp only [Chain.extend, Chain.load, Option.elim]
  all_goals omega

/-- A step adds an entry at most, so a list of tokens needs no more room than it has tokens. -/
theorem load_step_le (hWeight : weight ≤ 1) {r next : Reading} {k : TokenKind}
    (hStep : r.step k = some next) : next.load weight ≤ r.load weight + 1 := by
  unfold step at hStep
  split at hStep <;> cases hStep
  case h_1 l outer x => exact Nat.le_succ_of_le (load_done_le weight l outer _)
  case h_2 l outer => rw [load_start_cons]; omega
  case h_3 l outer op => rw [load_push]; omega
  case h_4 l outer => rw [load_push]; omega
  case h_5 c outer f op =>
    have hExtend := load_extend_le weight c f op
    simp only [load, Level.load, List.length_nil]
    omega
  case h_6 c l outer f =>
    have hInner := load_done_le weight l outer (l.wrap (.group (c.sum f)))
    simp only [load, outerLoad] at hInner ⊢
    omega

/-- A token adds one to the load at most, so nothing needs more room than there are tokens. -/
theorem within_of_length (hWeight : weight ≤ 1) {r : Reading} {kinds : List TokenKind}
    (hRoom : r.load weight + kinds.length ≤ room) : r.Within weight room kinds := by
  induction kinds generalizing r with
  | nil => trivial
  | cons k kinds ih =>
      intro next hStep
      have hLoad := load_step_le hWeight hStep
      rw [List.length_cons] at hRoom
      exact ⟨by omega, ih (by omega)⟩

end Reading

end Formula.Grammar
