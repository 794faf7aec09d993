import Formula.Proofs.EarliestError

/-! Which token an error of the reader points at. Reading stops at one place; what is read in front
of it decides with which errors the token there can be refused. -/
namespace Formula

open Grammar

namespace Grammar.Reading

variable {limits : Limits}

/-- Reading stops: the tokens end, the next one cannot stand there, or a limit is hit. -/
inductive Stops (limits : Limits) (last : Reading) : List Token → Prop where
  | ended : Stops limits last []
  | misplaced {t : Token} {after : List Token} (hStep : last.step t.kind = none) :
      Stops limits last (t :: after)
  | limited {t : Token} {after : List Token} {next : Reading} {e : ParseError}
      (hStep : last.step t.kind = some next) (hCheck : next.check limits .empty t = .error e) :
      Stops limits last (t :: after)

/-- The errors with a span that a token can be refused with behind a reading. -/
inductive Refuses (limits : Limits) (last : Reading) (t : Token) : ParseError → Prop where
  | tooDeep (hKind : t.kind = .openParen) (hGroups : last.groups.length = limits.maxDepth) :
      Refuses limits last t (.tooDeep limits.maxDepth t.span)
  | expectedExpression (hNumber : ∀ x, t.kind ≠ .number x) (hOpen : t.kind ≠ .openParen)
      (hPrefix : ∀ op, t.kind ≠ .operator (.prefixed op))
      (hSign : t.kind ≠ .operator (.binary .sub)) :
      Refuses limits last t (.expectedExpression t.text t.span)
  | expectedCloseParen (hBinary : ∀ op, t.kind ≠ .operator (.binary op))
      (hClose : t.kind ≠ .closeParen) : Refuses limits last t (.expectedCloseParen t.text t.span)
  | unexpectedToken (hBinary : ∀ op, t.kind ≠ .operator (.binary op)) :
      Refuses limits last t (.unexpectedToken t.text t.span)

theorem groups_le_of_check {r next : Reading} {t : Token} (hStep : r.step t.kind = some next)
    (hGroups : r.groups.length ≤ limits.maxDepth) (hCheck : next.check limits .empty t = .ok ()) :
    next.groups.length ≤ limits.maxDepth := by
  by_cases hOpen : t.kind = .openParen
  · cases r with
    | done c outer f => simp [step, hOpen] at hStep
    | due l outer =>
        rw [hOpen] at hStep
        cases hStep
        rw [check] at hCheck
        split at hCheck
        · cases hCheck
        · rename_i hRoom
          have hDepth := Nat.not_lt.mp fun h => hRoom ⟨hOpen, h⟩
          rwa [Stacks.empty, Nat.zero_add] at hDepth
  · have hCount := groups_step hStep
    have hNone : [t.kind].count .openParen = 0 :=
      List.count_eq_zero.mpr (by simpa using Ne.symm hOpen)
    omega

/-- Reading gets to one place, where the answer is decided. The groups that are open there are
within the limit. -/
theorem exists_stops {r : Reading} (hGroups : r.groups.length ≤ limits.maxDepth)
    (tokens : List Token) :
    ∃ before rest last, tokens = before ++ rest ∧ r.run (before.map (·.kind)) = some last ∧
      last.groups.length ≤ limits.maxDepth ∧ Stops limits last rest ∧
        r.finish limits .empty tokens = last.finish limits .empty rest := by
  induction tokens generalizing r with
  | nil => exact ⟨[], [], r, rfl, rfl, hGroups, .ended, rfl⟩
  | cons t tokens ih =>
      cases hStep : r.step t.kind with
      | none => exact ⟨[], t :: tokens, r, rfl, rfl, hGroups, .misplaced hStep, rfl⟩
      | some next =>
          cases hCheck : next.check limits .empty t with
          | error e =>
              exact ⟨[], t :: tokens, r, rfl, rfl, hGroups, .limited hStep hCheck, rfl⟩
          | ok =>
              obtain ⟨before, rest, last, hTokens, hRun, hLast, hStops, hFinish⟩ :=
                ih (groups_le_of_check hStep hGroups hCheck)
              refine ⟨t :: before, rest, last, by rw [hTokens]; rfl, ?_, hLast, hStops, ?_⟩
              · rw [List.map_cons, run, hStep]
                exact hRun
              · rw [finish, hStep, ← hFinish]
                simp only [hCheck, bind, Except.bind]

/-- A limit that has a place in the text is the depth of the groups. -/
theorem refuses_of_check {last next : Reading} {t : Token} {e : ParseError} {span : Span}
    (hStep : last.step t.kind = some next) (hGroups : last.groups.length ≤ limits.maxDepth)
    (hCheck : next.check limits .empty t = .error e) (hSpan : e.span? = some span) :
    span = t.span ∧ Refuses limits last t e := by
  cases next with
  | done c outer f =>
      rw [check] at hCheck
      split at hCheck
      · cases hCheck
        cases hSpan
      · cases hCheck
  | due l outer =>
      rw [check] at hCheck
      split at hCheck
      · rename_i hDeep
        cases hCheck
        cases hSpan
        have hCount : outer.length + [t.kind].count .closeParen =
            last.groups.length + [t.kind].count .openParen := groups_step hStep
        rw [hDeep.1] at hCount
        have hNone : [TokenKind.openParen].count .closeParen = 0 := rfl
        have hOne : [TokenKind.openParen].count .openParen = 1 := rfl
        have hDepth : limits.maxDepth < 0 + outer.length := hDeep.2
        exact ⟨rfl, .tooDeep hDeep.1 (by omega)⟩
      · split at hCheck
        · cases hCheck
          cases hSpan
        · cases hCheck

/-- A misplaced token is refused by what is read in front of it. -/
theorem refuses_of_step {last : Reading} {t : Token} {after : List Token} {e : ParseError}
    {span : Span} {answer : Sum → Except ParseError Expr} (hStep : last.step t.kind = none)
    (hError : (last.finish limits .empty (t :: after) >>= fun
      | (s, []) => answer s
      | (_, t :: _) => .error (.unexpectedToken t.text t.span)) = .error e)
    (hSpan : e.span? = some span) : span = t.span ∧ Refuses limits last t e := by
  have hBinary {c : Chain} {outer : List Level} {f : Factor}
      (hDone : (done c outer f).step t.kind = none) (op : BinaryOp) :
      t.kind ≠ .operator (.binary op) := by
    intro hKind
    rw [hKind] at hDone
    cases hDone
  rcases last with ⟨l, outer⟩ | ⟨c, _ | ⟨l, outer⟩, f⟩
  · simp only [finish, hStep, sum?, rejection, bind, Except.bind, Except.error.injEq] at hError
    subst e
    cases hSpan
    refine ⟨rfl, .expectedExpression ?_ ?_ ?_ ?_⟩
    · intro x hKind
      simp [step, hKind] at hStep
    · intro hKind
      simp [step, hKind] at hStep
    · intro op hKind
      simp [step, hKind] at hStep
    · intro hKind
      simp [step, hKind] at hStep
  · simp only [finish, hStep, sum?, bind, Except.bind, Except.error.injEq] at hError
    subst e
    cases hSpan
    exact ⟨rfl, .unexpectedToken (hBinary hStep)⟩
  · simp only [finish, hStep, sum?, rejection, bind, Except.bind, Except.error.injEq] at hError
    subst e
    cases hSpan
    refine ⟨rfl, .expectedCloseParen (hBinary hStep) ?_⟩
    intro hKind
    simp [step, hKind] at hStep

end Grammar.Reading

/-- An error of the reader that has a place is a refusal of one of the tokens. -/
theorem Expr.exists_refuses {limits : Limits} {tokens : List Token} {e : ParseError} {span : Span}
    (hError : ofTokens limits tokens = .error e) (hSpan : e.span? = some span) :
    ∃ before t after last, tokens = before ++ t :: after ∧
      Reading.start.run (before.map (·.kind)) = some last ∧ span = t.span ∧
        last.Refuses limits t e := by
  rw [ofTokens_eq] at hError
  by_cases hRoom : limits.stackCapacity = 0
  · rw [if_pos hRoom] at hError
    cases hError
    cases hSpan
  · have hStart : Reading.start.groups.length ≤ limits.maxDepth := Nat.zero_le _
    obtain ⟨before, rest, last, rfl, hRun, hGroups, hStops, hFinish⟩ :=
      Reading.exists_stops hStart tokens
    rw [if_neg hRoom, hFinish] at hError
    cases hStops with
    | ended =>
        rw [Reading.finish] at hError
        split at hError
        · cases hError
        · cases hError
          cases hSpan
    | @misplaced t after hStep =>
        obtain ⟨hPlace, hRefuses⟩ := Reading.refuses_of_step hStep hError hSpan
        exact ⟨before, t, after, last, rfl, hRun, hPlace, hRefuses⟩
    | @limited t after next e' hStep hCheck =>
        simp only [Reading.finish, hStep, hCheck, bind, Except.bind, Except.error.injEq] at hError
        subst e'
        obtain ⟨hPlace, hRefuses⟩ := Reading.refuses_of_check hStep hGroups hCheck hSpan
        exact ⟨before, t, after, last, rfl, hRun, hPlace, hRefuses⟩

end Formula
