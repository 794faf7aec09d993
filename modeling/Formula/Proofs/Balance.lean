import Mathlib.Logic.Relation
import Formula.Proofs.EarliestError

/-! The two stacks stay balanced. At every place that the reader gets to there is one operand for
each binary operator that waits, one more behind a complete operand, and one marker for each group
that is open and for the expression as a whole. So no operand is ever missed, no marker is ever
reduced, and only the operator stack can be full. Each operator is a binary one or one in front of
its operand, so reducing has a case for all of them. -/
namespace Formula

open Grammar

/-- Whether an entry waits for two operands. -/
def Entry.isBinary : Entry → Bool
  | .operator (.binary _) => true
  | .marker | .operator (.prefixed _) => false

namespace Stacks

/-- Where the reader is: what the next token has to be, the stacks, and the tokens ahead. -/
structure Place where
  phase : Phase
  state : Stacks
  ahead : List Token

namespace Place

/-- What the reader answers from here on, in a group that was opened when `outer` groups were
open. -/
def answer (limits : Limits) (outer : Nat) (p : Place) : Except ParseError (Stacks × List Token) :=
  readGroup limits outer p.phase p.state p.ahead

/-- The reader goes on by one token. -/
inductive Move (limits : Limits) (outer : Nat) : Place → Place → Prop where
  | operand {s next : Stacks} {t : Token} {ahead : List Token} {phase : Phase}
      (hRead : s.readOperand limits t = .ok (phase, next)) :
      Move limits outer ⟨.operandDue, s, t :: ahead⟩ ⟨phase, next, ahead⟩
  | binary {s next : Stacks} {t : Token} {ahead : List Token} {op : BinaryOp}
      (hKind : t.kind = .operator (.binary op))
      (hPush : s.pushBinary limits.stackCapacity op = .ok next) :
      Move limits outer ⟨.operandDone, s, t :: ahead⟩ ⟨.operandDue, next, ahead⟩
  | close {s left : Stacks} {t : Token} {ahead : List Token} (hKind : t.kind = .closeParen)
      (hLeave : s.leave limits.stackCapacity = .ok left) (hOpen : outer < s.openGroups) :
      Move limits outer ⟨.operandDone, s, t :: ahead⟩
        ⟨.operandDone, { left with openGroups := s.openGroups - 1 }, ahead⟩

variable {limits : Limits} {outer : Nat} {p q : Place}

/-- A move is a part of the run: the answer is left to where it leads. -/
theorem answer_of_move (hMove : p.Move limits outer q) :
    p.answer limits outer = q.answer limits outer := by
  cases hMove with
  | operand hRead =>
      rw [answer, readGroup, hRead]
      rfl
  | binary hKind hPush =>
      rw [answer, readGroup, hKind]
      simp only [hPush]
      rfl
  | @close _ _ t _ hKind hLeave hOpen =>
      have hOther : ∀ op, t.kind ≠ .operator (.binary op) := by simp [hKind]
      rw [answer, readGroup_done_cons hOther, hLeave]
      simp only [bind, Except.bind, if_neg (Nat.not_le.mpr hOpen), hKind]
      rfl

/-- The stacks of a place hold a reading. Behind a complete operand the operators in front of it
still wait on the stack. -/
inductive Holds (limits : Limits) (base : Stacks) : Reading → Place → Prop where
  | due (l : Level) (outer : List Level) (ahead : List Token) :
      Holds limits base (.due l outer) ⟨.operandDue, base.holding l outer [], ahead⟩
  | done (l : Level) (outer : List Level) (f : Factor) (ahead : List Token)
      (hRoom : (base.holding l outer [f.expr]).operands.length ≤ limits.stackCapacity) :
      Holds limits base (.done l.toChain outer (l.wrap f))
        ⟨.operandDone, base.holding l outer [f.expr], ahead⟩

theorem ok_of_map_eq_ok {α : Type} {check : Except ParseError Unit} {a b : α}
    (hMap : (check.map fun _ => a) = .ok b) : check = .ok () ∧ a = b := by
  cases check with
  | error e => cases hMap
  | ok =>
      cases hMap
      exact ⟨rfl, rfl⟩

/-- Reading an operand token keeps the stacks in step with the reading, from any stacks below. -/
theorem Holds.readOperand {base next : Stacks} {l : Level} {levels : List Level} {t : Token}
    {phase : Phase} (hRead : (base.holding l levels []).readOperand limits t = .ok (phase, next))
    (ahead : List Token) :
    ∃ r, (Reading.due l levels).step t.kind = some r ∧
      Holds limits base r ⟨phase, next, ahead⟩ := by
  cases hKind : t.kind with
  | number x =>
      rw [readOperand_number hKind] at hRead
      obtain ⟨hCheck, hNext⟩ := ok_of_map_eq_ok hRead
      cases hNext
      exact ⟨_, rfl, .done l levels (.number x) ahead (Reading.le_of_check_done (t := t) hCheck)⟩
  | openParen =>
      rw [readOperand_openParen hKind] at hRead
      obtain ⟨_, hNext⟩ := ok_of_map_eq_ok hRead
      cases hNext
      exact ⟨_, rfl, .due .start (l :: levels) ahead⟩
  | closeParen => simp [Stacks.readOperand, hKind] at hRead
  | operator op =>
      rcases op with op | op
      · cases op with
        | sub =>
            rw [readOperand_prefixed .neg (.inr hKind)] at hRead
            obtain ⟨_, hNext⟩ := ok_of_map_eq_ok hRead
            cases hNext
            exact ⟨_, rfl, .due (l.push .neg) levels ahead⟩
        | add | mul | div => simp [Stacks.readOperand, hKind] at hRead
      · rw [readOperand_prefixed op (.inl hKind)] at hRead
        obtain ⟨_, hNext⟩ := ok_of_map_eq_ok hRead
        cases hNext
        exact ⟨_, rfl, .due (l.push op) levels ahead⟩

/-- Where the stacks hold a reading, a move reads one token of it. -/
theorem Holds.move {base : Stacks} {r : Reading} (hHolds : Holds limits base r p)
    (hMove : p.Move limits base.openGroups q) :
    ∃ t next, p.ahead = t :: q.ahead ∧ r.step t.kind = some next ∧ Holds limits base next q := by
  cases hHolds with
  | due l levels ahead =>
      cases hMove with
      | @operand _ _ t ahead _ hRead =>
          obtain ⟨next, hStep, hNext⟩ := Holds.readOperand hRead ahead
          exact ⟨t, next, rfl, hStep, hNext⟩
  | done l levels f ahead hRoom =>
      cases hMove with
      | @binary _ _ t ahead op hKind hPush =>
          rw [pushBinary_holding hKind l levels f hRoom] at hPush
          obtain ⟨_, hNext⟩ := ok_of_map_eq_ok hPush
          subst hNext
          exact ⟨t, _, rfl, by rw [hKind]; rfl, .due ⟨l.extend (l.wrap f) op, []⟩ levels ahead⟩
      | @close _ left t ahead hKind hLeave hOpen =>
          cases levels with
          | nil => exact absurd hOpen (Nat.lt_irrefl _)
          | cons m levels =>
              obtain ⟨s, hLeft, hHolding⟩ := leave_holding_cons l m levels f hRoom
              cases hLeave.symm.trans hLeft
              have hCheck := check_closeParen (t := t) l m levels f
                (m.wrap (.group (l.sum (l.wrap f)))) hRoom
              refine ⟨t, _, rfl, by rw [hKind]; rfl, ?_⟩
              refine (congrArg (Holds limits base _ ⟨.operandDone, ·, ahead⟩) hHolding).mpr ?_
              exact .done m levels (.group (l.sum (l.wrap f))) ahead
                (Reading.le_of_check_done (t := t) hCheck)

/-- A level has one marker: the one that it starts with. -/
theorem count_marker_frame (l : Level) : l.frame.count .marker = 1 := by
  rcases l with ⟨⟨sum?, product?⟩, prefixes⟩
  have hPrefixes : (prefixes.map fun op => Entry.operator (.prefixed op)).count .marker = 0 := by
    simp [List.count_eq_zero]
  cases sum? <;> cases product? <;>
    simp [Level.frame, Chain.entries, List.count_append, hPrefixes]

/-- On the stacks of a level, binary operators and waiting operands come in pairs. -/
theorem countP_isBinary_frame (l : Level) : l.frame.countP Entry.isBinary = l.operands.length := by
  rcases l with ⟨⟨sum?, product?⟩, prefixes⟩
  have hPrefixes :
      (prefixes.map fun op => Entry.operator (.prefixed op)).countP Entry.isBinary = 0 := by
    simp [List.countP_eq_zero, Entry.isBinary]
  cases sum? <;> cases product? <;>
    simp [Level.frame, Chain.entries, Chain.operands, hPrefixes, List.countP_cons, Entry.isBinary]

theorem count_marker_outer (levels : List Level) :
    (levels.flatMap (·.frame)).count .marker = levels.length := by
  induction levels with
  | nil => rfl
  | cons l levels ih =>
      rw [List.flatMap_cons, List.count_append, count_marker_frame, ih, List.length_cons,
        Nat.add_comm]

theorem countP_isBinary_outer (levels : List Level) :
    (levels.flatMap (·.frame)).countP Entry.isBinary =
      (levels.flatMap (·.operands)).length := by
  induction levels with
  | nil => rfl
  | cons l levels ih =>
      rw [List.flatMap_cons, List.countP_append, countP_isBinary_frame, ih, List.flatMap_cons,
        List.length_append]

/-- The balance of the stacks behind the given tokens. Open groups are counted by the tokens, so a
group is closed only where one is open. -/
structure Balanced (read : List Token) (p : Place) : Prop where
  operands : p.state.operands.length =
    p.state.operators.countP Entry.isBinary + if p.phase = .operandDone then 1 else 0
  markers : p.state.operators.count .marker = p.state.openGroups + 1
  groups : p.state.openGroups + (read.map (·.kind)).count .closeParen =
    (read.map (·.kind)).count .openParen

/-- Stacks that hold what has been read are balanced. -/
theorem Holds.balanced {r : Reading} {read : List Token} (hHolds : Holds limits .empty r p)
    (hRun : Reading.start.run (read.map (·.kind)) = some r) : p.Balanced read := by
  have hGroups := Reading.groups_run hRun
  have hStart : Reading.start.groups.length = 0 := rfl
  rw [hStart, Nat.zero_add] at hGroups
  cases hHolds with
  | due l levels ahead =>
      constructor
      · simp [holding, Stacks.empty, countP_isBinary_frame, countP_isBinary_outer]
      · simp [holding, Stacks.empty, count_marker_frame, count_marker_outer, Nat.add_comm]
      · simpa [holding, Stacks.empty, Reading.groups] using hGroups
  | done l levels f ahead hRoom =>
      constructor
      · simp [holding, Stacks.empty, countP_isBinary_frame, countP_isBinary_outer]
      · simp [holding, Stacks.empty, count_marker_frame, count_marker_outer, Nat.add_comm]
      · simpa [holding, Stacks.empty, Reading.groups] using hGroups

/-- The places that the reader gets to with a whole list of tokens. -/
def Reached (limits : Limits) (tokens : List Token) (p : Place) : Prop :=
  ∃ s, Stacks.empty.pushOperator limits.stackCapacity .marker = .ok s ∧
    Relation.ReflTransGen (Move limits Stacks.empty.openGroups) ⟨.operandDue, s, tokens⟩ p

/-- Whatever the reader answers in the end is its answer at each place on the way. -/
theorem Reached.readExpr_eq {tokens : List Token} (hReached : p.Reached limits tokens) :
    Stacks.empty.readExpr limits tokens = p.answer limits Stacks.empty.openGroups := by
  obtain ⟨s, hPush, hMoves⟩ := hReached
  induction hMoves with
  | refl =>
      rw [readExpr, hPush]
      rfl
  | tail _ hMove ih => exact ih.trans (answer_of_move hMove)

/-- The stacks hold a reading of the tokens that are read, all the way. -/
theorem Reached.exists_holds {tokens : List Token} (hReached : p.Reached limits tokens) :
    ∃ read r, tokens = read ++ p.ahead ∧ Reading.start.run (read.map (·.kind)) = some r ∧
      Holds limits .empty r p := by
  obtain ⟨s, hPush, hMoves⟩ := hReached
  induction hMoves with
  | refl =>
      have hFirst : s = Stacks.empty.holding .start [] [] := by
        rw [pushOperator] at hPush
        split at hPush
        · cases hPush
        · cases hPush
          rfl
      subst hFirst
      exact ⟨[], _, rfl, rfl, .due .start [] tokens⟩
  | @tail p q _ hMove ih =>
      obtain ⟨read, r, hTokens, hRun, hHolds⟩ := ih
      obtain ⟨t, next, hAhead, hStep, hNext⟩ := hHolds.move hMove
      refine ⟨read ++ [t], next, ?_, ?_, hNext⟩
      · rw [hTokens, hAhead, List.append_assoc]
        rfl
      · rw [List.map_append, Reading.run_append, hRun, Option.bind_some, List.map_singleton,
          Reading.run, hStep]
        rfl

end Place

end Stacks

/-- Errors that tell of stacks out of balance: something is missing, or there are more operands
than entries that wait for them. -/
def ParseError.Imbalance : ParseError → Prop
  | .stackEmpty _ | .stackFull .operand => True
  | _ => False

namespace Grammar.Reading

variable {limits : Limits} {r next : Reading} {t : Token}

/-- A reading that has room finds it for its operands too. -/
theorem not_imbalance_of_check {e : ParseError} (hStep : r.step t.kind = some next)
    (hLoad : r.load 1 ≤ limits.stackCapacity) (hCheck : next.check limits .empty t = .error e) :
    ¬ e.Imbalance := by
  cases next with
  | due l outer =>
      rw [check] at hCheck
      split at hCheck
      · cases hCheck
        exact id
      · split at hCheck
        · cases hCheck
          exact id
        · cases hCheck
  | done c outer f =>
      have hOperands := length_operands_holding_le c outer f f.expr
      have hDone := load_done_step_le 1 hStep
      rw [check, if_neg (by omega)] at hCheck
      cases hCheck

/-- The load stays within the capacity at every step that the limits let pass: a step that makes it
larger pushes an operator. -/
theorem load_le_of_check (hStep : r.step t.kind = some next)
    (hLoad : r.load 1 ≤ limits.stackCapacity) (hCheck : next.check limits .empty t = .ok ()) :
    next.load 1 ≤ limits.stackCapacity := by
  cases next with
  | due l outer =>
      rw [check] at hCheck
      split at hCheck
      · cases hCheck
      · split at hCheck
        · cases hCheck
        · rename_i hRoom
          rw [← length_operators_holding]
          exact Nat.not_lt.mp hRoom
  | done c outer f => exact Nat.le_trans (load_done_step_le 1 hStep) hLoad

/-- A reading that starts with a load within the capacity ends without a missing operand and without
a full operand stack. -/
theorem not_imbalance_of_finish {tokens : List Token} {e : ParseError}
    (hLoad : r.load 1 ≤ limits.stackCapacity) (hError : r.finish limits .empty tokens = .error e) :
    ¬ e.Imbalance := by
  induction tokens generalizing r with
  | nil =>
      rw [finish] at hError
      split at hError
      · cases hError
      · cases hError
        exact id
  | cons t tokens ih =>
      rw [finish] at hError
      split at hError
      · rename_i next hStep
        cases hCheck : next.check limits .empty t with
        | error e' =>
            rw [hCheck] at hError
            cases hError
            exact not_imbalance_of_check hStep hLoad hCheck
        | ok =>
            rw [hCheck] at hError
            exact ih (load_le_of_check hStep hLoad hCheck) hError
      · split at hError
        · cases hError
        · cases hError
          cases r <;> exact id

end Grammar.Reading

namespace Expr

variable {limits : Limits} {tokens : List Token}

theorem not_imbalance_of_ofTokens {error : ParseError}
    (hError : ofTokens limits tokens = .error error) : ¬ error.Imbalance := by
  rw [ofTokens_eq] at hError
  by_cases hRoom : limits.stackCapacity = 0
  · rw [if_pos hRoom] at hError
    cases hError
    exact id
  · rw [if_neg hRoom] at hError
    have hLoad : Reading.start.load 1 ≤ limits.stackCapacity := by
      rw [Reading.load_start]
      exact Nat.pos_of_ne_zero hRoom
    rcases hFinish : Reading.start.finish limits .empty tokens with e | ⟨s, _ | ⟨t, rest⟩⟩
    all_goals
      rw [hFinish] at hError
      cases hError
    · exact Reading.not_imbalance_of_finish hLoad hFinish
    · exact id

/-- A whole expression leaves nothing behind it on the stacks. -/
theorem readExpr_of_ofTokens {e : Expr} (hOk : ofTokens limits tokens = .ok e) :
    Stacks.empty.readExpr limits tokens = .ok (⟨[e], [], 0⟩, []) := by
  rw [Stacks.readExpr_eq]
  rw [ofTokens_eq] at hOk
  by_cases hRoom : limits.stackCapacity = 0
  · rw [if_pos hRoom] at hOk
    cases hOk
  · have hEmpty : ¬ limits.stackCapacity ≤ Stacks.empty.operators.length :=
      fun hNone => hRoom (Nat.le_zero.mp hNone)
    rw [if_neg hRoom] at hOk
    rw [if_neg hEmpty]
    rcases hFinish : Reading.start.finish limits .empty tokens with error | ⟨s, _ | ⟨t, rest⟩⟩
    all_goals
      rw [hFinish] at hOk
      cases hOk
    rfl

end Expr

open Stacks

/-- Reading tokens never misses an operand or an operator, never reduces a marker, and never has
more operands than the stack has room for: of the two stacks, only that of the operators can be
full. Behind a whole expression the stacks hold that expression and nothing else. On the way there,
the stacks are balanced at every place, and groups are closed only where some are open. -/
theorem ofTokens_balanced (limits : Limits) (tokens : List Token) :
    (∀ stack, Expr.ofTokens limits tokens ≠ .error (.stackEmpty stack)) ∧
    (∀ stack, Expr.ofTokens limits tokens = .error (.stackFull stack) → stack = .operator) ∧
    (∀ e, Expr.ofTokens limits tokens = .ok e →
      Stacks.empty.readExpr limits tokens = .ok (⟨[e], [], 0⟩, [])) ∧
    ∀ p : Place, p.Reached limits tokens →
      Stacks.empty.readExpr limits tokens = p.answer limits 0 ∧
        ∃ read, tokens = read ++ p.ahead ∧ p.Balanced read := by
  refine ⟨?_, ?_, fun e hOk => Expr.readExpr_of_ofTokens hOk, ?_⟩
  · intro stack hError
    exact Expr.not_imbalance_of_ofTokens hError trivial
  · intro stack hError
    cases stack with
    | operand => exact absurd trivial (Expr.not_imbalance_of_ofTokens hError)
    | operator => rfl
  · intro p hReached
    obtain ⟨read, r, hTokens, hRun, hHolds⟩ := hReached.exists_holds
    exact ⟨hReached.readExpr_eq, read, hTokens, hHolds.balanced hRun⟩

/-- Inside a group, behind its first sign: the operand in front of the sign waits for the other one,
and the reader answers from here that the text ends too early. -/
theorem ofTokens_balanced_open_group :
    let tokens : List Token :=
      [⟨.openParen, ⟨0, 1⟩⟩, ⟨.number 2, ⟨1, 2⟩⟩, ⟨.operator (.binary .mul), ⟨2, 3⟩⟩]
    let p : Place := ⟨.operandDue,
      ⟨[.number 2], [.operator (.binary .mul), .marker, .marker], 1⟩, []⟩
    p.Reached .standard tokens ∧ Stacks.empty.readExpr .standard tokens = .error .unexpectedEnd ∧
      ∃ read, tokens = read ++ p.ahead ∧ p.Balanced read := by
  intro tokens p
  have hReached : p.Reached .standard tokens := by
    refine ⟨_, rfl, ?_⟩
    apply Relation.ReflTransGen.head (Place.Move.operand rfl)
    apply Relation.ReflTransGen.head (Place.Move.operand rfl)
    exact .single (.binary rfl rfl)
  obtain ⟨hAnswer, hBalanced⟩ := (ofTokens_balanced .standard tokens).2.2.2 p hReached
  exact ⟨hReached, hAnswer, hBalanced⟩

end Formula
