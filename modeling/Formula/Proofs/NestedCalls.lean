import Formula.Proofs.StackReading

/-! Reading an expression is a call that leaves nothing behind it but one operand. All open groups
share the two stacks, and yet a call inside a group changes nothing below its own marker, and what
it reads depends on the tokens alone. The calls are told apart by running the reader with one call
for each group, in place of one pass over all of them. -/
namespace Formula

open Grammar

namespace Grammar.Reading

/-- The sentence that goes on with the tokens as far as it can, and the tokens behind it. No stack
and no limit has a part in it. -/
def sentence? : Reading → List Token → Option (Sum × List Token)
  | r, [] => r.sum?.map fun s => (s, [])
  | r, t :: tokens =>
    match r.step t.kind with
    | some next => next.sentence? tokens
    | none => r.sum?.map fun s => (s, t :: tokens)

variable {limits : Limits} {base : Stacks} {r : Reading} {tokens rest : List Token} {s : Sum}

/-- A reading that succeeds finds the sentence that the tokens alone determine. -/
theorem sentence?_of_finish (hFinish : r.finish limits base tokens = .ok (s, rest)) :
    r.sentence? tokens = some (s, rest) := by
  induction tokens generalizing r with
  | nil =>
      cases hSum : r.sum? with
      | none => simp [finish, hSum] at hFinish
      | some _ =>
          simp only [finish, hSum, Except.ok.injEq] at hFinish
          simp [sentence?, hSum, hFinish]
  | cons t tokens ih =>
      cases hStep : r.step t.kind with
      | some next =>
          cases hCheck : next.check limits base t with
          | error e => simp [finish, hStep, hCheck, bind, Except.bind] at hFinish
          | ok =>
              simp only [finish, hStep, hCheck, bind, Except.bind] at hFinish
              simp only [sentence?, hStep]
              exact ih hFinish
      | none =>
          cases hSum : r.sum? with
          | none => simp [finish, hStep, hSum] at hFinish
          | some _ =>
              simp only [finish, hStep, hSum, Except.ok.injEq] at hFinish
              simp [sentence?, hStep, hSum, hFinish]

/-- The sentence has been read up to a place where it is whole and the next token does not belong
to it. -/
theorem exists_run_of_sentence? (hSentence : r.sentence? tokens = some (s, rest)) :
    ∃ read last, tokens = read ++ rest ∧ r.run (read.map (·.kind)) = some last ∧
      last.sum? = some s ∧ ∀ t ∈ rest.head?, last.step t.kind = none := by
  induction tokens generalizing r with
  | nil =>
      obtain ⟨_, hSum, hAnswer⟩ := Option.map_eq_some_iff.mp hSentence
      cases hAnswer
      exact ⟨[], r, rfl, rfl, hSum, by simp⟩
  | cons t tokens ih =>
      cases hStep : r.step t.kind with
      | some next =>
          simp only [sentence?, hStep] at hSentence
          obtain ⟨read, last, rfl, hRun, hSum, hStop⟩ := ih hSentence
          refine ⟨t :: read, last, rfl, ?_, hSum, hStop⟩
          rw [List.map_cons, run, hStep]
          exact hRun
      | none =>
          simp only [sentence?, hStep] at hSentence
          obtain ⟨_, hSum, hAnswer⟩ := Option.map_eq_some_iff.mp hSentence
          cases hAnswer
          exact ⟨[], r, rfl, rfl, hSum, by simpa using hStep⟩

/-- Behind a whole sentence a binary operator always goes on. -/
theorem not_binary_of_step {last : Reading} {t : Token} (hSum : last.sum? = some s)
    (hStep : last.step t.kind = none) (op : BinaryOp) : t.kind ≠ .operator (.binary op) := by
  intro hKind
  rw [hKind] at hStep
  rcases last with ⟨l, outer⟩ | ⟨c, _ | ⟨l, outer⟩, f⟩
  · cases hSum
  · cases hStep
  · cases hSum

end Grammar.Reading

namespace Stacks

variable {limits : Limits} {s next : Stacks} {tokens rest : List Token}

/-- A call that succeeds has put the sentence on top of the operands and has changed nothing
else. -/
theorem exists_of_readExpr (hRead : s.readExpr limits tokens = .ok (next, rest)) :
    ∃ sum, Reading.start.sentence? tokens = some (sum, rest) ∧ next = s.withValue sum.expr := by
  rw [readExpr_eq] at hRead
  split at hRead
  · cases hRead
  · rcases hFinish : Reading.start.finish limits s tokens with error | ⟨sum, behind⟩
    all_goals
      rw [hFinish] at hRead
      cases hRead
    exact ⟨sum, Reading.sentence?_of_finish hFinish, rfl⟩

/-- A call leaves as many groups open as it found. -/
theorem openGroups_of_readExpr (hRead : s.readExpr limits tokens = .ok (next, rest)) :
    next.openGroups = s.openGroups := by
  obtain ⟨sum, _, rfl⟩ := exists_of_readExpr hRead
  rfl

/-- A call that succeeds has read a token at least, and it stops in front of none that would go
on with the expression. -/
theorem exists_read_of_readExpr (hRead : s.readExpr limits tokens = .ok (next, rest)) :
    ∃ read, tokens = read ++ rest ∧ read ≠ [] ∧
      ∀ t ∈ rest.head?, ∀ op, t.kind ≠ .operator (.binary op) := by
  obtain ⟨sum, hSentence, _⟩ := exists_of_readExpr hRead
  obtain ⟨read, last, hTokens, hRun, hSum, hStop⟩ := Reading.exists_run_of_sentence? hSentence
  refine ⟨read, hTokens, ?_, fun t hHead => Reading.not_binary_of_step hSum (hStop t hHead)⟩
  rintro rfl
  cases hRun
  cases hSum

theorem openGroups_of_pushOperator {capacity : Nat} {entry : Entry}
    (hPush : s.pushOperator capacity entry = .ok next) : next.openGroups = s.openGroups := by
  rw [pushOperator] at hPush
  split at hPush
  · cases hPush
  · cases hPush
    rfl

theorem openGroups_of_pushBinary {capacity : Nat} {op : BinaryOp}
    (hPush : s.pushBinary capacity op = .ok next) : next.openGroups = s.openGroups := by
  rw [pushBinary] at hPush
  rcases hReduce : reduceFrom capacity (Operator.binary op).precedence s.operators s.operands with
    error | ⟨operators, operands⟩
  all_goals rw [hReduce] at hPush
  · cases hPush
  · exact openGroups_of_pushOperator (s := { s with operators, operands }) hPush

theorem openGroups_of_leave {capacity : Nat} (hLeave : s.leave capacity = .ok next) :
    next.openGroups = s.openGroups := by
  rw [leave] at hLeave
  rcases hReduce : reduceFrom capacity 1 s.operators s.operands with
    error | ⟨_ | ⟨top, operators⟩, operands⟩
  all_goals
    rw [hReduce] at hLeave
    cases hLeave
  rfl

/-- Only an open parenthesis opens a group. -/
theorem openGroups_of_readOperand {t : Token} {phase : Phase}
    (hRead : s.readOperand limits t = .ok (phase, next)) :
    next.openGroups = s.openGroups + if t.kind = .openParen then 1 else 0 := by
  have hPrefixed (op : PrefixOp) (hPush : (s.pushOperator limits.stackCapacity
      (.operator (.prefixed op)) >>= fun s => pure (Phase.operandDue, s)) = .ok (phase, next)) :
      next.openGroups = s.openGroups := by
    cases hPushed : s.pushOperator limits.stackCapacity (.operator (.prefixed op)) with
    | error e =>
        rw [hPushed] at hPush
        cases hPush
    | ok pushed =>
        rw [hPushed] at hPush
        cases hPush
        exact openGroups_of_pushOperator hPushed
  cases hKind : t.kind with
  | number x =>
      simp only [readOperand, hKind] at hRead
      cases hPushed : pushOperand limits.stackCapacity (.number x) s.operands with
      | error e =>
          rw [hPushed] at hRead
          cases hRead
      | ok operands =>
          rw [hPushed] at hRead
          cases hRead
          rfl
  | openParen =>
      simp only [readOperand, hKind] at hRead
      split at hRead
      · cases hRead
      · cases hPushed : pushOperator limits.stackCapacity .marker
            { s with openGroups := s.openGroups + 1 } with
        | error e =>
            rw [hPushed] at hRead
            cases hRead
        | ok pushed =>
            rw [hPushed] at hRead
            cases hRead
            exact openGroups_of_pushOperator hPushed
  | closeParen => simp [readOperand, hKind] at hRead
  | operator op =>
      rcases op with op | op
      · cases op with
        | sub =>
            simp only [readOperand, hKind] at hRead
            exact hPrefixed .neg hRead
        | add | mul | div => simp [readOperand, hKind] at hRead
      · simp only [readOperand, hKind] at hRead
        exact hPrefixed op hRead

/-- What becomes of an expression that was read inside a group: the parenthesis that closes the
group has to follow it, and reading goes on outside of the group. -/
def closeGroup (limits : Limits) (outer : Nat) :
    Stacks × List Token → Except ParseError (Stacks × List Token)
  | (_, []) => .error .unexpectedEnd
  | (s, t :: tokens) =>
    match t.kind with
    | .closeParen =>
      readGroup limits outer .operandDone { s with openGroups := s.openGroups - 1 } tokens
    | _ => .error (.expectedCloseParen t.text t.span)

theorem closeGroup_of_closeParen {u : Token} (hClose : u.kind = .closeParen) (outer : Nat) :
    closeGroup limits outer (s, u :: rest) =
      readGroup limits outer .operandDone { s with openGroups := s.openGroups - 1 } rest := by
  simp only [closeGroup, hClose]

theorem closeGroup_of_ne {u : Token} (hOther : u.kind ≠ .closeParen) (outer : Nat) :
    closeGroup limits outer (s, u :: rest) = .error (.expectedCloseParen u.text u.span) := by
  rw [closeGroup]
  split
  · rename_i hClose
    exact absurd hClose hOther
  · rfl

/-- Reading up to the end of a group reads up to the end of any group inside it first. -/
theorem readGroup_eq_bind {outer group : Nat} (hOuter : outer < group) (phase : Phase) (s : Stacks)
    (hGroup : group ≤ s.openGroups) (tokens : List Token) :
    readGroup limits outer phase s tokens =
      readGroup limits group phase s tokens >>= closeGroup limits outer := by
  induction tokens generalizing phase s with
  | nil =>
      cases phase with
      | operandDue => rfl
      | operandDone =>
          have hOpen : ¬ s.openGroups ≤ outer := by omega
          rw [readGroup, readGroup]
          cases s.leave limits.stackCapacity with
          | error e => rfl
          | ok left =>
              simp only [bind, Except.bind, if_neg hOpen]
              by_cases hLast : s.openGroups ≤ group
              · rw [if_pos hLast]
                rfl
              · rw [if_neg hLast]
  | cons t tokens ih =>
      cases phase with
      | operandDue =>
          rw [readGroup, readGroup]
          cases hRead : s.readOperand limits t with
          | error e => rfl
          | ok answer =>
              have hGroups := openGroups_of_readOperand hRead
              exact ih answer.1 answer.2 (by omega)
      | operandDone =>
          by_cases hBinary : ∃ op, t.kind = .operator (.binary op)
          · obtain ⟨op, hKind⟩ := hBinary
            simp only [readGroup, hKind]
            cases hPush : s.pushBinary limits.stackCapacity op with
            | error e => rfl
            | ok next =>
                have hGroups := openGroups_of_pushBinary hPush
                exact ih .operandDue next (by omega)
          · have hOther : ∀ op, t.kind ≠ .operator (.binary op) :=
              fun op hKind => hBinary ⟨op, hKind⟩
            have hOpen : ¬ s.openGroups ≤ outer := by omega
            rw [readGroup_done_cons hOther, readGroup_done_cons hOther]
            cases hLeave : s.leave limits.stackCapacity with
            | error e => rfl
            | ok left =>
                have hGroups := openGroups_of_leave hLeave
                simp only [bind, Except.bind, if_neg hOpen]
                by_cases hLast : s.openGroups ≤ group
                · rw [if_pos hLast, ← hGroups]
                  rfl
                · rw [if_neg hLast]
                  cases hKind : t.kind with
                  | closeParen =>
                      exact ih .operandDone { left with openGroups := s.openGroups - 1 }
                        (Nat.le_sub_one_of_lt (Nat.not_le.mp hLast))
                  | number x | openParen | operator op => rfl

/-- An open parenthesis where an operand is due is followed by a call for its group. -/
theorem readGroup_openParen {t : Token} {outer : Nat} (hKind : t.kind = .openParen)
    (hRoom : s.openGroups < limits.maxDepth) (hOuter : outer ≤ s.openGroups) :
    readGroup limits outer .operandDue s (t :: tokens) =
      readExpr limits { s with openGroups := s.openGroups + 1 } tokens >>=
        closeGroup limits outer := by
  simp only [readGroup, readOperand, hKind, if_neg (Nat.not_le.mpr hRoom), readExpr]
  cases hPush : pushOperator limits.stackCapacity .marker
      { s with openGroups := s.openGroups + 1 } with
  | error e => rfl
  | ok inner =>
      have hGroups := openGroups_of_pushOperator hPush
      exact readGroup_eq_bind (Nat.lt_succ_of_le hOuter) .operandDue inner
        (Nat.le_of_eq hGroups.symm) tokens

/-- The loop that reduces, told round by round. A round reduces the entry on top; the loop ends at
an entry that binds less tightly than `precedence`. -/
inductive Reduces (capacity precedence : Nat) :
    List Entry → List Expr → Except ParseError (List Entry × List Expr) → Prop where
  | missing {operands : List Expr} :
      Reduces capacity precedence [] operands (.error (.stackEmpty .operator))
  | done {top : Entry} {entries : List Entry} {operands : List Expr}
      (hTop : top.precedence < precedence) :
      Reduces capacity precedence (top :: entries) operands (.ok (top :: entries, operands))
  | failed {top : Entry} {entries : List Entry} {operands : List Expr} {e : ParseError}
      (hTop : precedence ≤ top.precedence) (hReduce : reduce capacity operands top = .error e) :
      Reduces capacity precedence (top :: entries) operands (.error e)
  | round {top : Entry} {entries : List Entry} {operands reduced : List Expr}
      {answer : Except ParseError (List Entry × List Expr)}
      (hTop : precedence ≤ top.precedence) (hReduce : reduce capacity operands top = .ok reduced)
      (hRest : Reduces capacity precedence entries reduced answer) :
      Reduces capacity precedence (top :: entries) operands answer

/-- Adds a binary operator to the stacks that the loop in front of it has left. -/
def pushOnto (capacity : Nat) (op : BinaryOp) (s : Stacks) (reduced : List Entry × List Expr) :
    Except ParseError Stacks :=
  pushOperator capacity (.operator (.binary op))
    { s with operators := reduced.1, operands := reduced.2 }

/-- Takes the marker away from the stacks that the loop at the end of a group has left. -/
def dropMarker (s : Stacks) (reduced : List Entry × List Expr) : Except ParseError Stacks :=
  match reduced.1 with
  | [] => .error (.stackEmpty .operator)
  | _ :: operators => .ok { s with operators, operands := reduced.2 }

/-- Where a reader that calls itself for every group can be. -/
inductive Point where
  /-- A call starts. -/
  | entry
  /-- A call is under way, in the given phase. -/
  | inside (phase : Phase)

/-- Reading with one call for each group. `Reads limits n point s tokens answer` says that reading
from `point` comes to an end with `answer`, and that `n` calls at most are nested in each other on
the way, those before `point` not counted. A call starts with its marker and ends without it; the
parentheses around a group are read by the call outside. -/
inductive Reads (limits : Limits) :
    Nat → Point → Stacks → List Token → Except ParseError (Stacks × List Token) → Prop where
  | full {s : Stacks} {tokens : List Token} {e : ParseError}
      (hMarker : s.pushOperator limits.stackCapacity .marker = .error e) :
      Reads limits 1 .entry s tokens (.error e)
  | call {n : Nat} {s inner : Stacks} {tokens : List Token}
      {answer : Except ParseError (Stacks × List Token)}
      (hMarker : s.pushOperator limits.stackCapacity .marker = .ok inner)
      (hInside : Reads limits n (.inside .operandDue) inner tokens answer) :
      Reads limits (n + 1) .entry s tokens answer
  | ended {s : Stacks} :
      Reads limits 0 (.inside .operandDue) s [] (.error .unexpectedEnd)
  | refused {s : Stacks} {t : Token} {tokens : List Token} {e : ParseError}
      (hOther : t.kind ≠ .openParen) (hRead : s.readOperand limits t = .error e) :
      Reads limits 0 (.inside .operandDue) s (t :: tokens) (.error e)
  | operand {n : Nat} {s next : Stacks} {t : Token} {tokens : List Token} {phase : Phase}
      {answer : Except ParseError (Stacks × List Token)}
      (hOther : t.kind ≠ .openParen) (hRead : s.readOperand limits t = .ok (phase, next))
      (hRest : Reads limits n (.inside phase) next tokens answer) :
      Reads limits n (.inside .operandDue) s (t :: tokens) answer
  | tooDeep {s : Stacks} {t : Token} {tokens : List Token}
      (hOpen : t.kind = .openParen) (hDeep : limits.maxDepth ≤ s.openGroups) :
      Reads limits 0 (.inside .operandDue) s (t :: tokens)
        (.error (.tooDeep limits.maxDepth t.span))
  | groupFailed {n : Nat} {s : Stacks} {t : Token} {tokens : List Token} {e : ParseError}
      (hOpen : t.kind = .openParen) (hRoom : s.openGroups < limits.maxDepth)
      (hGroup : Reads limits n .entry { s with openGroups := s.openGroups + 1 } tokens (.error e)) :
      Reads limits n (.inside .operandDue) s (t :: tokens) (.error e)
  | groupUnclosed {n : Nat} {s next : Stacks} {t : Token} {tokens : List Token}
      (hOpen : t.kind = .openParen) (hRoom : s.openGroups < limits.maxDepth)
      (hGroup : Reads limits n .entry { s with openGroups := s.openGroups + 1 } tokens
        (.ok (next, []))) :
      Reads limits n (.inside .operandDue) s (t :: tokens) (.error .unexpectedEnd)
  | groupMisplaced {n : Nat} {s next : Stacks} {t u : Token} {tokens rest : List Token}
      (hOpen : t.kind = .openParen) (hRoom : s.openGroups < limits.maxDepth)
      (hGroup : Reads limits n .entry { s with openGroups := s.openGroups + 1 } tokens
        (.ok (next, u :: rest)))
      (hOther : u.kind ≠ .closeParen) :
      Reads limits n (.inside .operandDue) s (t :: tokens)
        (.error (.expectedCloseParen u.text u.span))
  | group {n m : Nat} {s next : Stacks} {t u : Token} {tokens rest : List Token}
      {answer : Except ParseError (Stacks × List Token)}
      (hOpen : t.kind = .openParen) (hRoom : s.openGroups < limits.maxDepth)
      (hGroup : Reads limits n .entry { s with openGroups := s.openGroups + 1 } tokens
        (.ok (next, u :: rest)))
      (hClose : u.kind = .closeParen)
      (hRest : Reads limits m (.inside .operandDone)
        { next with openGroups := next.openGroups - 1 } rest answer) :
      Reads limits (max n m) (.inside .operandDue) s (t :: tokens) answer
  | binaryFailed {s : Stacks} {t : Token} {tokens : List Token} {op : BinaryOp} {e : ParseError}
      {reduced : Except ParseError (List Entry × List Expr)}
      (hKind : t.kind = .operator (.binary op))
      (hReduce : Reduces limits.stackCapacity (Operator.binary op).precedence s.operators
        s.operands reduced)
      (hPush : reduced >>= s.pushOnto limits.stackCapacity op = .error e) :
      Reads limits 0 (.inside .operandDone) s (t :: tokens) (.error e)
  | binary {n : Nat} {s next : Stacks} {t : Token} {tokens : List Token} {op : BinaryOp}
      {reduced : Except ParseError (List Entry × List Expr)}
      {answer : Except ParseError (Stacks × List Token)}
      (hKind : t.kind = .operator (.binary op))
      (hReduce : Reduces limits.stackCapacity (Operator.binary op).precedence s.operators
        s.operands reduced)
      (hPush : reduced >>= s.pushOnto limits.stackCapacity op = .ok next)
      (hRest : Reads limits n (.inside .operandDue) next tokens answer) :
      Reads limits n (.inside .operandDone) s (t :: tokens) answer
  | leave {s : Stacks} {tokens : List Token}
      {reduced : Except ParseError (List Entry × List Expr)}
      (hOther : ∀ t ∈ tokens.head?, ∀ op, t.kind ≠ .operator (.binary op))
      (hReduce : Reduces limits.stackCapacity 1 s.operators s.operands reduced) :
      Reads limits 0 (.inside .operandDone) s tokens
        ((reduced >>= s.dropMarker).map fun left => (left, tokens))

/-- The loop comes to an end on every stack: each round takes an entry away. -/
theorem reduces_reduceFrom (capacity precedence : Nat) (entries : List Entry)
    (operands : List Expr) :
    Reduces capacity precedence entries operands
      (reduceFrom capacity precedence entries operands) := by
  induction entries generalizing operands with
  | nil => exact .missing
  | cons top entries ih =>
      rw [reduceFrom]
      split
      · rename_i hTop
        cases hReduce : reduce capacity operands top with
        | error e => exact .failed hTop hReduce
        | ok reduced => exact .round hTop hReduce (ih reduced)
      · rename_i hTop
        exact .done (Nat.not_le.mp hTop)

/-- There is one way for the rounds to go. -/
theorem Reduces.answer_eq {capacity precedence : Nat} {entries : List Entry}
    {operands : List Expr} {answer : Except ParseError (List Entry × List Expr)}
    (hReduces : Reduces capacity precedence entries operands answer) :
    answer = reduceFrom capacity precedence entries operands := by
  induction hReduces with
  | missing => rfl
  | done hTop => exact (reduceFrom_of_lt hTop).symm
  | failed hTop hReduce =>
      rw [reduceFrom, if_pos hTop, hReduce]
      rfl
  | round hTop hReduce _ ih =>
      rw [reduceFrom, if_pos hTop, hReduce]
      exact ih

/-- What the reader that goes over all groups in one pass answers from a point. -/
def Point.answer (limits : Limits) (s : Stacks) (tokens : List Token) :
    Point → Except ParseError (Stacks × List Token)
  | .entry => s.readExpr limits tokens
  | .inside phase => readGroup limits s.openGroups phase s tokens

/-- In its own group the call ends in front of every token that is no binary operator. -/
theorem readGroup_leave (hOther : ∀ t ∈ tokens.head?, ∀ op, t.kind ≠ .operator (.binary op)) :
    readGroup limits s.openGroups .operandDone s tokens =
      (s.leave limits.stackCapacity).map fun left => (left, tokens) := by
  cases tokens with
  | nil =>
      rw [readGroup]
      cases s.leave limits.stackCapacity with
      | error e => rfl
      | ok left => exact if_pos (Nat.le_refl _)
  | cons t tokens =>
      rw [readGroup_done_cons (hOther t rfl)]
      cases s.leave limits.stackCapacity with
      | error e => rfl
      | ok left => exact if_pos (Nat.le_refl _)

/-- One pass goes on from an open parenthesis with the answer of the call for its group. -/
theorem Point.answer_of_group {t : Token} {answer : Except ParseError (Stacks × List Token)}
    (hOpen : t.kind = .openParen) (hRoom : s.openGroups < limits.maxDepth)
    (hGroup : answer =
      Point.entry.answer limits { s with openGroups := s.openGroups + 1 } tokens) :
    (Point.inside .operandDue).answer limits s (t :: tokens) =
      answer >>= closeGroup limits s.openGroups := by
  rw [hGroup]
  exact readGroup_openParen hOpen hRoom (Nat.le_refl _)

/-- Calls for the groups answer as one pass over all of them. -/
theorem Reads.answer_eq {n : Nat} {point : Point}
    {answer : Except ParseError (Stacks × List Token)}
    (hReads : Reads limits n point s tokens answer) : answer = point.answer limits s tokens := by
  induction hReads with
  | full hMarker =>
      rw [Point.answer, readExpr, hMarker]
      rfl
  | @call _ s inner _ _ hMarker _ ih =>
      rw [ih, Point.answer, Point.answer, readExpr, hMarker, openGroups_of_pushOperator hMarker]
      rfl
  | ended => rfl
  | refused _ hRead =>
      rw [Point.answer, readGroup, hRead]
      rfl
  | operand hOther hRead _ ih =>
      have hGroups := openGroups_of_readOperand hRead
      rw [if_neg hOther, Nat.add_zero] at hGroups
      rw [ih, Point.answer, Point.answer, readGroup, hRead, hGroups]
      rfl
  | tooDeep hOpen hDeep =>
      simp [Point.answer, readGroup, readOperand, hOpen, hDeep, bind, Except.bind]
  | groupFailed hOpen hRoom _ ih => exact (Point.answer_of_group hOpen hRoom ih).symm
  | groupUnclosed hOpen hRoom _ ih => exact (Point.answer_of_group hOpen hRoom ih).symm
  | groupMisplaced hOpen hRoom _ hOther ih =>
      exact ((Point.answer_of_group hOpen hRoom ih).trans (closeGroup_of_ne hOther _)).symm
  | @group _ _ s next _ u _ rest answer hOpen hRoom _ hClose _ ihGroup ihRest =>
      have hGroups : next.openGroups - 1 = s.openGroups :=
        congrArg (· - 1) (openGroups_of_readExpr ihGroup.symm)
      calc
        answer = readGroup limits (next.openGroups - 1) .operandDone
            { next with openGroups := next.openGroups - 1 } rest := ihRest
        _ = closeGroup limits s.openGroups (next, u :: rest) := by
          rw [closeGroup_of_closeParen hClose, hGroups]
        _ = _ := (Point.answer_of_group hOpen hRoom ihGroup).symm
  | @binaryFailed s _ _ op _ _ hKind hReduce hPush =>
      have hPushed : s.pushBinary limits.stackCapacity op = .error _ :=
        hReduce.answer_eq ▸ hPush
      simp only [Point.answer, readGroup, hKind, hPushed]
      rfl
  | @binary _ s _ _ _ op _ _ hKind hReduce hPush _ ih =>
      have hPushed : s.pushBinary limits.stackCapacity op = .ok _ :=
        hReduce.answer_eq ▸ hPush
      have hGroups := openGroups_of_pushBinary hPushed
      rw [Point.answer, hGroups] at ih
      simp only [Point.answer, readGroup, hKind, hPushed]
      exact ih
  | leave hOther hReduce =>
      rw [Point.answer, readGroup_leave hOther, hReduce.answer_eq]
      rfl

/-- Calls that can still be nested from a point on. -/
def Point.room (limits : Limits) (s : Stacks) : Point → Nat
  | .entry => limits.maxDepth - s.openGroups + 1
  | .inside _ => limits.maxDepth - s.openGroups

/-- A call is made for a group only where the depth has room for it. -/
theorem Reads.calls_le {n : Nat} {point : Point}
    {answer : Except ParseError (Stacks × List Token)}
    (hReads : Reads limits n point s tokens answer) : n ≤ point.room limits s := by
  induction hReads with
  | full _ => exact Nat.le_add_left 1 _
  | call hMarker _ ih =>
      rw [Point.room, openGroups_of_pushOperator hMarker] at ih
      exact Nat.succ_le_succ ih
  | ended | refused | tooDeep | binaryFailed | leave => exact Nat.zero_le _
  | operand hOther hRead _ ih =>
      have hGroups := openGroups_of_readOperand hRead
      rw [if_neg hOther, Nat.add_zero] at hGroups
      rwa [Point.room, hGroups] at ih
  | groupFailed _ hRoom _ ih | groupUnclosed _ hRoom _ ih | groupMisplaced _ hRoom _ _ ih =>
      simp only [Point.room] at ih ⊢
      omega
  | group _ hRoom hGroup _ _ ihGroup ihRest =>
      have hGroups := openGroups_of_readExpr hGroup.answer_eq.symm
      simp only [Point.room] at ihGroup ihRest ⊢
      simp only at hGroups
      omega
  | binary _ hReduce hPush _ ih =>
      have hGroups := openGroups_of_pushBinary (hReduce.answer_eq ▸ hPush)
      rwa [Point.room, hGroups] at ih

/-- A call comes to an end when reading does behind its marker. -/
theorem exists_reads_entry
    (hInside : ∀ s, ∃ n answer, Reads limits n (.inside .operandDue) s tokens answer) (s : Stacks) :
    ∃ n answer, Reads limits n .entry s tokens answer := by
  cases hMarker : s.pushOperator limits.stackCapacity .marker with
  | error e => exact ⟨1, _, .full hMarker⟩
  | ok inner =>
      obtain ⟨n, answer, hReads⟩ := hInside inner
      exact ⟨n + 1, answer, .call hMarker hReads⟩

/-- Reading comes to an end inside every call. The induction is on the tokens ahead: a call for a
group leaves fewer of them behind. -/
theorem exists_reads_inside (limits : Limits) (phase : Phase) (s : Stacks) (tokens : List Token) :
    ∃ n answer, Reads limits n (.inside phase) s tokens answer := by
  induction hLength : tokens.length using Nat.strongRecOn generalizing phase s tokens with
  | ind length ih =>
      have hLater (phase : Phase) (s : Stacks) (later : List Token)
          (hLess : later.length < tokens.length) :
          ∃ n answer, Reads limits n (.inside phase) s later answer :=
        ih later.length (hLength ▸ hLess) phase s later rfl
      cases phase with
      | operandDue =>
          cases tokens with
          | nil => exact ⟨0, _, .ended⟩
          | cons t tokens =>
              have hNext (phase : Phase) (s : Stacks) :=
                hLater phase s tokens (Nat.lt_succ_self _)
              by_cases hOpen : t.kind = .openParen
              · by_cases hRoom : s.openGroups < limits.maxDepth
                · obtain ⟨n, answer, hGroup⟩ := exists_reads_entry (hNext .operandDue)
                    { s with openGroups := s.openGroups + 1 }
                  rcases answer with e | ⟨next, _ | ⟨u, rest⟩⟩
                  · exact ⟨n, _, .groupFailed hOpen hRoom hGroup⟩
                  · exact ⟨n, _, .groupUnclosed hOpen hRoom hGroup⟩
                  · by_cases hClose : u.kind = .closeParen
                    · obtain ⟨read, hTokens, -⟩ := exists_read_of_readExpr hGroup.answer_eq.symm
                      have hLess : rest.length < (t :: tokens).length := by
                        rw [hTokens]
                        simp
                        omega
                      obtain ⟨m, answer, hRest⟩ := hLater .operandDone
                        { next with openGroups := next.openGroups - 1 } rest hLess
                      exact ⟨max n m, answer, .group hOpen hRoom hGroup hClose hRest⟩
                    · exact ⟨n, _, .groupMisplaced hOpen hRoom hGroup hClose⟩
                · exact ⟨0, _, .tooDeep hOpen (Nat.not_lt.mp hRoom)⟩
              · cases hRead : s.readOperand limits t with
                | error e => exact ⟨0, _, .refused hOpen hRead⟩
                | ok read =>
                    obtain ⟨n, answer, hRest⟩ := hNext read.1 read.2
                    exact ⟨n, answer, .operand hOpen hRead hRest⟩
      | operandDone =>
          have hLoop (precedence : Nat) :=
            reduces_reduceFrom limits.stackCapacity precedence s.operators s.operands
          by_cases hBinary : ∃ t ∈ tokens.head?, ∃ op, t.kind = .operator (.binary op)
          · obtain ⟨t, hHead, op, hKind⟩ := hBinary
            obtain ⟨later, rfl⟩ := List.head?_eq_some_iff.mp hHead
            cases hPush : s.pushBinary limits.stackCapacity op with
            | error e => exact ⟨0, _, .binaryFailed hKind (hLoop _) hPush⟩
            | ok next =>
                obtain ⟨n, answer, hRest⟩ := hLater .operandDue next later (Nat.lt_succ_self _)
                exact ⟨n, answer, .binary hKind (hLoop _) hPush hRest⟩
          · exact ⟨0, _, .leave (fun t hHead op hKind => hBinary ⟨t, hHead, op, hKind⟩) (hLoop 1)⟩

end Stacks

open Stacks

/-- A call of the reader that succeeds has put one expression on top of the operands and has left
the operators and the open groups as they were. It has read some of the tokens and has stopped in
front of none with which the expression would go on; and any other call on the same tokens that
succeeds, whatever the stacks and the limits, reads as far and finds the same expression. With a
call for each group and loops that reduce round by round, reading comes to an end from all stacks.
It has the same answer then, and calls are nested only as deep as the limit on open groups leaves
room. -/
theorem readExpr_call (limits : Limits) (s : Stacks) (tokens : List Token) (i : Nat) :
    (∀ next rest, s.readExpr limits (tokens.drop i) = .ok (next, rest) →
      ∃ e j, next = { s with operands := e :: s.operands } ∧ rest = tokens.drop j ∧
        i < j ∧ j ≤ tokens.length ∧
        (∀ t ∈ tokens[j]?, ∀ op, t.kind ≠ .operator (.binary op)) ∧
        ∀ (limits' : Limits) (s' next' : Stacks) (rest' : List Token),
          s'.readExpr limits' (tokens.drop i) = .ok (next', rest') →
            next' = { s' with operands := e :: s'.operands } ∧ rest' = tokens.drop j) ∧
    (∃ n answer, Reads limits n .entry s (tokens.drop i) answer) ∧
    ∀ n answer, Reads limits n .entry s (tokens.drop i) answer →
      answer = s.readExpr limits (tokens.drop i) ∧ n ≤ limits.maxDepth - s.openGroups + 1 := by
  refine ⟨fun next rest hRead => ?_, ?_, fun n answer hReads => ?_⟩
  · obtain ⟨sum, hSentence, hNext⟩ := exists_of_readExpr hRead
    obtain ⟨read, hTokens, hSome, hStop⟩ := exists_read_of_readExpr hRead
    have hRest : rest = tokens.drop (i + read.length) := by
      rw [← List.drop_drop, hTokens, List.drop_left]
    have hPos := List.length_pos_iff.mpr hSome
    have hLength : tokens.length - i = read.length + rest.length := by
      rw [← List.length_drop, hTokens, List.length_append]
    refine ⟨sum.expr, i + read.length, hNext, hRest, by omega, by omega, ?_, ?_⟩
    · rwa [← List.head?_drop, ← hRest]
    · intro limits' s' next' rest' hOther
      obtain ⟨sum', hSentence', hNext'⟩ := exists_of_readExpr hOther
      rw [hSentence, Option.some.injEq, Prod.mk.injEq] at hSentence'
      obtain ⟨rfl, rfl⟩ := hSentence'
      exact ⟨hNext', hRest⟩
  · exact exists_reads_entry (fun s => exists_reads_inside limits .operandDue s _) s
  · exact ⟨hReads.answer_eq, hReads.calls_le⟩

/-- In a group that waits with a sum: the call finds the product and leaves the parenthesis to the
call outside, and from empty stacks it finds the same product. -/
theorem readExpr_call_in_group :
    let close : Token := ⟨.closeParen, ⟨5, 6⟩⟩
    let tokens : List Token :=
      [⟨.openParen, ⟨0, 1⟩⟩, ⟨.number 2, ⟨1, 2⟩⟩, ⟨.operator (.binary .mul), ⟨2, 3⟩⟩,
        ⟨.operator (.binary .sub), ⟨3, 4⟩⟩, ⟨.number 5, ⟨4, 5⟩⟩, close]
    let limits : Limits := { maxDepth := 2 }
    let s : Stacks := ⟨[.number 7], [.operator (.binary .add), .marker], 1⟩
    let product : Expr := .binary .mul (.number 2) (.unary .neg (.number 5))
    let next : Stacks := { s with operands := product :: s.operands }
    s.readExpr limits (tokens.drop 1) = .ok (next, [close]) ∧
      empty.readExpr .standard (tokens.drop 1) = .ok (⟨[product], [], 0⟩, [close]) ∧
      (∃ e j, next = { s with operands := e :: s.operands } ∧ [close] = tokens.drop j ∧ 1 < j ∧
        j ≤ 6 ∧ (⟨[product], [], 0⟩ : Stacks) = { empty with operands := e :: empty.operands }) ∧
      ∃ n, Reads limits n .entry s (tokens.drop 1) (.ok (next, [close])) ∧ n ≤ 2 := by
  intro close tokens limits s product next
  obtain ⟨hCalls, ⟨n, answer, hReads⟩, hAnswer⟩ := readExpr_call limits s tokens 1
  have hRead : s.readExpr limits (tokens.drop 1) = .ok (next, [close]) := rfl
  have hOther : empty.readExpr .standard (tokens.drop 1) = .ok (⟨[product], [], 0⟩, [close]) := rfl
  obtain ⟨e, j, hNext, hRest, hLess, hLe, -, hSame⟩ := hCalls _ _ hRead
  obtain ⟨hSameAnswer, hDepth⟩ := hAnswer n answer hReads
  rw [hRead] at hSameAnswer
  exact ⟨hRead, hOther, ⟨e, j, hNext, hRest, hLess, hLe, (hSame _ _ _ _ hOther).1⟩, n,
    hSameAnswer ▸ hReads, hDepth⟩

end Formula
