import Formula.Proofs.Load
import Formula.Proofs.StackReading

/-! Which lists of tokens the reader takes: sentences whose operators and open groups find room.
Operands never ask for more room than operators. -/
namespace Formula

open Grammar

namespace Grammar.Reading

variable {limits : Limits}

/-- A level has as many entries on the operator stack as its load says. -/
theorem length_frame (l : Level) : l.frame.length = l.load 1 := by
  rcases l with ⟨⟨sum?, product?⟩, prefixes⟩
  cases sum? <;> cases product? <;>
    simp [Level.frame, Chain.entries, Level.load, Chain.load]
  all_goals omega

/-- Each operand that waits does so for an operator, which counts in the load. -/
theorem length_operands_le (c : Chain) : c.operands.length ≤ c.load 1 := by
  rcases c with ⟨sum?, product?⟩
  cases sum? <;> cases product? <;> simp [Chain.operands, Chain.load]

theorem length_flatMap_frame (outer : List Level) :
    (outer.flatMap (·.frame)).length = outerLoad 1 outer := by
  induction outer with
  | nil => rfl
  | cons l outer ih => rw [List.flatMap_cons, List.length_append, length_frame, ih, outerLoad]

theorem length_flatMap_operands_le (outer : List Level) :
    (outer.flatMap (·.operands)).length ≤ outerLoad 1 outer := by
  induction outer with
  | nil => exact Nat.le_refl 0
  | cons l outer ih =>
      have hLevel := length_operands_le l.toChain
      simp only [List.flatMap_cons, List.length_append, outerLoad, Level.load]
      omega

/-- Where an operand is due, the operator stack is as long as the load of the reading. -/
theorem length_operators_holding (l : Level) (outer : List Level) :
    (Stacks.empty.holding l outer []).operators.length = (due l outer).load 1 := by
  simp only [Stacks.holding, Stacks.empty, List.append_nil, List.length_append, length_frame,
    length_flatMap_frame, load]

/-- Behind a complete operand, the operand stack is no longer than the load of the reading. -/
theorem length_operands_holding_le (c : Chain) (outer : List Level) (f : Factor) (e : Expr) :
    (Stacks.empty.holding ⟨c, []⟩ outer [e]).operands.length ≤ (done c outer f).load 1 := by
  have hChain := length_operands_le c
  have hOuter := length_flatMap_operands_le outer
  simp only [Stacks.holding, Stacks.empty, load, Level.load, List.length_append,
    List.length_cons, List.length_nil]
  omega

/-- When waiting operators weigh nothing, open groups are counted by their markers alone. -/
theorem outerLoad_zero (outer : List Level) : outerLoad 0 outer = outer.length := by
  induction outer with
  | nil => rfl
  | cons l outer ih =>
      have hLevel : l.load 0 = 1 := by
        rcases l with ⟨⟨_ | _, _ | _⟩, prefixes⟩ <;> simp [Level.load, Chain.load]
      rw [outerLoad, hLevel, ih, List.length_cons, Nat.add_comm]

theorem load_zero_due (l : Level) (outer : List Level) :
    (due l outer).load 0 = outer.length + 1 := by
  rw [← List.length_cons (a := l), ← outerLoad_zero, outerLoad, load]

theorem load_zero_done (c : Chain) (outer : List Level) (f : Factor) :
    (done c outer f).load 0 = outer.length + 1 :=
  load_zero_due ⟨c, []⟩ outer

/-- The load fits into the limits. -/
def Fits (limits : Limits) (r : Reading) : Prop :=
  r.load 1 ≤ limits.stackCapacity ∧ r.load 0 ≤ limits.maxDepth + 1

/-- Only an open parenthesis adds to the depth. -/
theorem load_zero_step {r : Reading} {l : Level} {outer : List Level} {k : TokenKind}
    (hStep : r.step k = some (.due l outer)) (hOther : k ≠ .openParen) :
    r.load 0 = outer.length + 1 := by
  unfold step at hStep
  split at hStep <;> cases hStep
  case h_2 => exact absurd rfl hOther
  case h_3 l op => exact load_zero_due l outer
  case h_4 l => exact load_zero_due l outer
  case h_5 c f op => exact load_zero_done c outer f

/-- A step that completes an operand puts nothing on the operator stack. -/
theorem load_done_step_le {r : Reading} {c : Chain} {outer : List Level} {f : Factor}
    {k : TokenKind} (weight : Nat) (hStep : r.step k = some (.done c outer f)) :
    (done c outer f).load weight ≤ r.load weight := by
  unfold step at hStep
  split at hStep <;> cases hStep
  case h_1 l x => exact load_done_le weight l outer _
  case h_6 c l f =>
    refine Nat.le_trans (load_done_le weight l outer _) ?_
    exact Nat.le_add_left _ _

/-- The limits let a step pass exactly when its load fits. The depth is checked for an open
parenthesis only, because no other token adds to it. -/
theorem check_eq_ok_iff {r next : Reading} {t : Token} (hStep : r.step t.kind = some next)
    (hFits : r.Fits limits) : next.check limits .empty t = .ok () ↔ next.Fits limits := by
  cases next with
  | due l outer =>
      have hDepth : t.kind ≠ .openParen → outer.length ≤ limits.maxDepth := by
        intro hOther
        have hLoad := hFits.2
        rw [load_zero_step hStep hOther] at hLoad
        omega
      have hGroups : Stacks.empty.openGroups + outer.length = outer.length := Nat.zero_add _
      rw [check, Fits, length_operators_holding, load_zero_due, hGroups]
      by_cases hDeep : limits.maxDepth < outer.length
      · have hOpen : t.kind = .openParen := by
          by_cases hOpen : t.kind = .openParen
          · exact hOpen
          · exact absurd (hDepth hOpen) (Nat.not_le.mpr hDeep)
        rw [if_pos ⟨hOpen, hDeep⟩]
        simp only [reduceCtorEq, false_iff]
        omega
      · rw [if_neg (fun h => hDeep h.2)]
        by_cases hFull : limits.stackCapacity < (due l outer).load 1
        · rw [if_pos hFull]
          simp only [reduceCtorEq, false_iff]
          omega
        · rw [if_neg hFull]
          simp only [true_iff]
          omega
  | done c outer f =>
      have hRoom : (done c outer f).load 1 ≤ limits.stackCapacity :=
        Nat.le_trans (load_done_step_le 1 hStep) hFits.1
      have hOperands := length_operands_holding_le c outer f f.expr
      rw [check, if_neg (by omega)]
      simp only [true_iff]
      exact ⟨hRoom, Nat.le_trans (load_done_step_le 0 hStep) hFits.2⟩

/-- A reading is finished by the tokens that lead to a whole sentence, as long as all that waits
on the way finds room. -/
theorem finish_eq_ok_iff {r : Reading} {tokens : List Token} {s : Sum} (hFits : r.Fits limits) :
    r.finish limits .empty tokens = .ok (s, []) ↔
      (∃ last, r.run (tokens.map (·.kind)) = some last ∧ last.sum? = some s) ∧
        r.Within 1 limits.stackCapacity (tokens.map (·.kind)) ∧
          r.Within 0 (limits.maxDepth + 1) (tokens.map (·.kind)) := by
  induction tokens generalizing r with
  | nil =>
      cases hSum : r.sum? <;> simp [finish, run, Within, hSum]
  | cons t tokens ih =>
      cases hStep : r.step t.kind with
      | none =>
          cases hSum : r.sum? <;> simp [finish, run, hStep, hSum]
      | some next =>
          rw [List.map_cons, within_cons hStep, within_cons hStep]
          have hCheck := check_eq_ok_iff hStep hFits
          by_cases hNext : next.Fits limits
          · have hRest := ih hNext
            have hPass := hCheck.mpr hNext
            simp only [finish, run, hStep, hPass, bind, Except.bind, Option.bind_some]
            rw [hRest]
            simp only [hNext.1, hNext.2, true_and]
          · cases hFailed : next.check limits .empty t with
            | ok => exact absurd (hCheck.mp hFailed) hNext
            | error e =>
                simp only [finish, hStep, hFailed, bind, Except.bind, reduceCtorEq, false_iff]
                rintro ⟨_, ⟨hLoad, _⟩, hDepth, _⟩
                exact hNext ⟨hLoad, hDepth⟩

theorem check_ne_stackFull {next : Reading} {t : Token}
    (hLoad : next.load 1 ≤ limits.stackCapacity) (stack : StackKind) :
    next.check limits .empty t ≠ .error (.stackFull stack) := by
  cases next with
  | due l outer =>
      rw [check, length_operators_holding, if_neg (Nat.not_lt.mpr hLoad)]
      split <;> simp
  | done c outer f =>
      have hOperands := length_operands_holding_le c outer f f.expr
      rw [check, if_neg (by omega)]
      simp

/-- Where all that waits finds room, no stack is reported as full. -/
theorem finish_ne_stackFull {r : Reading} {tokens : List Token}
    (hWithin : r.Within 1 limits.stackCapacity (tokens.map (·.kind))) (stack : StackKind) :
    r.finish limits .empty tokens ≠ .error (.stackFull stack) := by
  induction tokens generalizing r with
  | nil => cases hSum : r.sum? <;> simp [finish, hSum]
  | cons t tokens ih =>
      cases hStep : r.step t.kind with
      | none =>
          cases hSum : r.sum? with
          | none => cases r <;> simp [finish, hStep, hSum, rejection]
          | some s => simp [finish, hStep, hSum]
      | some next =>
          obtain ⟨hLoad, hRest⟩ := hWithin next hStep
          have hCheck := check_ne_stackFull (t := t) hLoad stack
          have hFinish := ih hRest
          simp only [finish, hStep]
          cases hPass : next.check limits .empty t with
          | error e =>
              rw [hPass] at hCheck
              simpa [bind, Except.bind] using hCheck
          | ok => exact hFinish

end Grammar.Reading

/-- The reader takes the sentences that the limits have room for, and answers what they stand
for. -/
theorem Expr.ofTokens_eq_ok_iff (limits : Limits) (tokens : List Token) (e : Expr)
    (hWritten : .operator (.prefixed .neg) ∉ tokens.map (·.kind)) :
    ofTokens limits tokens = .ok e ↔
      ∃ s : Sum, s.kinds = tokens.map (·.kind) ∧ s.expr = e ∧
        s.need ≤ limits.stackCapacity ∧ s.nesting ≤ limits.maxDepth := by
  have hDepth (s : Sum) : 1 + s.peak 0 ≤ limits.maxDepth + 1 ↔ s.nesting ≤ limits.maxDepth := by
    rw [s.peak_zero]
    omega
  rw [ofTokens_eq]
  by_cases hRoom : limits.stackCapacity = 0
  · rw [if_pos hRoom]
    simp only [reduceCtorEq, false_iff]
    rintro ⟨s, _, _, hNeed, _⟩
    simp only [Sum.need] at hNeed
    omega
  · have hFits : Reading.start.Fits limits := by
      refine ⟨?_, ?_⟩
      · exact Nat.pos_of_ne_zero hRoom
      · exact Nat.le_add_left 1 _
    rw [if_neg hRoom]
    constructor
    · intro hOk
      rcases hFinish : Reading.start.finish limits .empty tokens with e | ⟨s, _ | ⟨t, rest⟩⟩
      all_goals
        rw [hFinish] at hOk
        cases hOk
      obtain ⟨hRun, hWidth, hHeight⟩ := (Reading.finish_eq_ok_iff hFits).mp hFinish
      have hKinds := (kinds_eq_iff_run s hWritten).mpr hRun
      rw [← hKinds, Reading.within_start_sum s (Nat.pos_of_ne_zero hRoom)] at hWidth
      rw [← hKinds, Reading.within_start_sum s (Nat.succ_pos _), hDepth] at hHeight
      exact ⟨s, hKinds, rfl, hWidth, hHeight⟩
    · rintro ⟨s, hKinds, rfl, hNeed, hNesting⟩
      have hWidth := (Reading.within_start_sum s (Nat.pos_of_ne_zero hRoom)).mpr hNeed
      have hHeight := (Reading.within_start_sum s (Nat.succ_pos _)).mpr ((hDepth s).mpr hNesting)
      have hRun := (kinds_eq_iff_run s hWritten).mp hKinds
      rw [hKinds] at hWidth hHeight
      rw [(Reading.finish_eq_ok_iff hFits).mpr ⟨hRun, hWidth, hHeight⟩]
      rfl

/-- A sentence that the operator stack has room for is never refused for want of it. -/
theorem Expr.ofTokens_ne_stackFull {limits : Limits} {tokens : List Token} {s : Sum}
    (hKinds : s.kinds = tokens.map (·.kind)) (hNeed : s.need ≤ limits.stackCapacity)
    (stack : StackKind) : ofTokens limits tokens ≠ .error (.stackFull stack) := by
  have hRoom : 0 < limits.stackCapacity := Nat.lt_of_lt_of_le (by simp only [Sum.need]; omega) hNeed
  have hWithin := (Reading.within_start_sum s hRoom).mpr hNeed
  rw [hKinds] at hWithin
  have hFinish := Reading.finish_ne_stackFull hWithin stack
  rw [ofTokens_eq, if_neg (Nat.ne_of_gt hRoom)]
  rcases hResult : Reading.start.finish limits .empty tokens with e | ⟨s, _ | ⟨t, rest⟩⟩
  · rw [hResult] at hFinish
    simpa [bind, Except.bind] using hFinish
  · simp [bind, Except.bind]
  · simp [bind, Except.bind]

end Formula
