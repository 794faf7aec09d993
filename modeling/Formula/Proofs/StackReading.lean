import Formula.Proofs.Reading
import Formula.Text.Parsing

/-! The two stacks hold a reading: its operands on one, its operators and a marker for every open
group on the other. What lies below the outermost group is arbitrary, so the statements hold for
the group of a whole text and for a group inside it alike. -/
namespace Formula

open Grammar

/-- Entries of the operators that wait in a chain, the later first. -/
def Grammar.Chain.entries (c : Chain) : List Entry :=
  (c.product?.elim [] fun (_, op) => [.operator (.binary op.toBinary)]) ++
    c.sum?.elim [] fun (_, op) => [.operator (.binary op.toBinary)]

/-- Operands that wait in a chain, the later first. -/
def Grammar.Chain.operands (c : Chain) : List Expr :=
  (c.product?.elim [] fun (p, _) => [p.expr]) ++ c.sum?.elim [] fun (s, _) => [s.expr]

/-- Entries of a group, with its marker at the bottom. -/
def Grammar.Level.frame (l : Level) : List Entry :=
  l.prefixes.map (fun op => .operator (.prefixed op)) ++ (l.entries ++ [.marker])

namespace Stacks

variable {capacity precedence : Nat} {operands : List Expr} {entries : List Entry}

/-- An operator in front of an operand takes the topmost operand. -/
theorem reduceFrom_prefixed (hPrecedence : precedence ≤ 3) (hRoom : operands.length < capacity)
    (op : PrefixOp) (e : Expr) :
    reduceFrom capacity precedence (.operator (.prefixed op) :: entries) (e :: operands) =
      reduceFrom capacity precedence entries (.unary op.toUnary e :: operands) := by
  have hTop : precedence ≤ (Entry.operator (.prefixed op)).precedence := hPrecedence
  rw [reduceFrom, if_pos hTop]
  simp [reduce, popOperand, pushOperand, bind, Except.bind, Nat.not_le.mpr hRoom]

/-- A binary operator takes two operands, the topmost one as its right. -/
theorem reduceFrom_binary (op : BinaryOp)
    (hPrecedence : precedence ≤ (Operator.binary op).precedence)
    (hRoom : operands.length < capacity) (left right : Expr) :
    reduceFrom capacity precedence (.operator (.binary op) :: entries)
        (right :: left :: operands) =
      reduceFrom capacity precedence entries (.binary op left right :: operands) := by
  have hTop : precedence ≤ (Entry.operator (.binary op)).precedence := hPrecedence
  rw [reduceFrom, if_pos hTop]
  simp [reduce, popOperand, pushOperand, bind, Except.bind, Nat.not_le.mpr hRoom]

theorem reduceFrom_of_lt {top : Entry} (hTop : top.precedence < precedence) :
    reduceFrom capacity precedence (top :: entries) operands = .ok (top :: entries, operands) := by
  rw [reduceFrom, if_neg (Nat.not_le.mpr hTop)]

/-- Operators in front of an operand bind tightest, so they are reduced whatever follows. -/
theorem reduceFrom_wrap (hPrecedence : precedence ≤ 3) (hRoom : operands.length < capacity)
    (l : Level) (f : Factor) :
    reduceFrom capacity precedence
        (l.prefixes.map (fun op => .operator (.prefixed op)) ++ entries) (f.expr :: operands) =
      reduceFrom capacity precedence entries ((l.wrap f).expr :: operands) := by
  rcases l with ⟨c, prefixes⟩
  induction prefixes generalizing f with
  | nil => rfl
  | cons op prefixes ih =>
      rw [List.map_cons, List.cons_append, reduceFrom_prefixed hPrecedence hRoom]
      exact ih (.prefixed op f)

/-- The product that waits is completed by whatever binds no more tightly than a product. -/
theorem reduceFrom_product (hPrecedence : precedence ≤ 2) (c : Chain) (f : Factor)
    (hRoom : (c.operands ++ operands).length < capacity) :
    reduceFrom capacity precedence (c.entries ++ entries)
        (f.expr :: (c.operands ++ operands)) =
      reduceFrom capacity precedence ((Chain.mk c.sum? none).entries ++ entries)
        ((c.product f).expr :: ((Chain.mk c.sum? none).operands ++ operands)) := by
  rcases c with ⟨sum?, _ | ⟨p, op⟩⟩
  · rfl
  · have hOp : precedence ≤ (Operator.binary op.toBinary).precedence := by
      cases op <;> exact hPrecedence
    simp only [Chain.operands, Option.elim_some, List.cons_append, List.nil_append,
      List.length_cons] at hRoom
    exact reduceFrom_binary op.toBinary hOp (Nat.lt_of_succ_lt hRoom) p.expr f.expr

/-- The end of a group completes the product and then the sum. -/
theorem reduceFrom_sum (hPrecedence : precedence ≤ 1) (c : Chain) (f : Factor)
    (hRoom : (c.operands ++ operands).length < capacity) :
    reduceFrom capacity precedence (c.entries ++ entries)
        (f.expr :: (c.operands ++ operands)) =
      reduceFrom capacity precedence entries ((c.sum f).expr :: operands) := by
  rw [reduceFrom_product (by omega) c f hRoom]
  rcases c with ⟨_ | ⟨s, op⟩, product?⟩
  · rfl
  · have hOp : precedence ≤ (Operator.binary op.toBinary).precedence := by
      cases op <;> exact hPrecedence
    have hBelow : operands.length < capacity :=
      Nat.lt_of_le_of_lt (by simp) hRoom
    exact reduceFrom_binary op.toBinary hOp hBelow s.expr _

theorem reduceFrom_frame (l : Level) (f : Factor) (hPrecedence : precedence ≤ 3)
    (hRoom : (l.operands ++ operands).length < capacity) :
    reduceFrom capacity precedence (l.frame ++ entries) (f.expr :: (l.operands ++ operands)) =
      reduceFrom capacity precedence (l.entries ++ .marker :: entries)
        ((l.wrap f).expr :: (l.operands ++ operands)) := by
  rw [Level.frame, List.append_assoc, List.append_assoc]
  exact reduceFrom_wrap hPrecedence hRoom l f

/-- Reducing stops at the marker, so nothing below it is touched. -/
theorem reduceFrom_eq_one (hPrecedence : precedence = 1) (l : Level) (f : Factor)
    (hRoom : (l.operands ++ operands).length < capacity) :
    reduceFrom capacity precedence (l.frame ++ entries) (f.expr :: (l.operands ++ operands)) =
      .ok (.marker :: entries, (l.sum (l.wrap f)).expr :: operands) := by
  rw [reduceFrom_frame l f (by omega) hRoom,
    reduceFrom_sum (by omega) l.toChain (l.wrap f) hRoom]
  exact reduceFrom_of_lt (by rw [hPrecedence]; decide)

/-- An operator of a product leaves a sum waiting that stands below. -/
theorem reduceFrom_eq_two (hPrecedence : precedence = 2) (l : Level) (f : Factor)
    (hRoom : (l.operands ++ operands).length < capacity) :
    reduceFrom capacity precedence (l.frame ++ entries) (f.expr :: (l.operands ++ operands)) =
      .ok ((Chain.mk l.sum? none).entries ++ .marker :: entries,
        (l.product (l.wrap f)).expr :: ((Chain.mk l.sum? none).operands ++ operands)) := by
  rw [reduceFrom_frame l f (by omega) hRoom,
    reduceFrom_product (by omega) l.toChain (l.wrap f) hRoom, hPrecedence]
  rcases l.sum? with _ | ⟨s, op⟩
  · exact reduceFrom_of_lt (by decide)
  · exact reduceFrom_of_lt (by cases op <;> decide)

/-- The end of a group reduces all that waits in it and takes its marker away. -/
theorem leave_frame (l : Level) (f : Factor) (groups : Nat)
    (hRoom : (l.operands ++ operands).length < capacity) :
    leave capacity ⟨f.expr :: (l.operands ++ operands), l.frame ++ entries, groups⟩ =
      .ok ⟨(l.sum (l.wrap f)).expr :: operands, entries, groups⟩ := by
  have hReduced : reduceFrom capacity 1 (l.frame ++ entries) _ = _ :=
    reduceFrom_eq_one rfl l f hRoom
  simp only [leave, hReduced, bind, Except.bind]

/-- A binary operator takes what binds at least as tightly as its left operand. -/
theorem reduceFrom_extend (entries : List Entry) (l : Level) (f : Factor) (op : BinaryOp)
    (hRoom : (l.operands ++ operands).length < capacity) :
    ∃ rest, reduceFrom capacity (Operator.binary op).precedence (l.frame ++ entries)
        (f.expr :: (l.operands ++ operands)) =
          .ok (rest, (l.extend (l.wrap f) op).operands ++ operands) ∧
      .operator (.binary op) :: rest =
        (Level.mk (l.extend (l.wrap f) op) []).frame ++ entries := by
  cases op with
  | add => exact ⟨_, reduceFrom_eq_one rfl l f hRoom, rfl⟩
  | sub => exact ⟨_, reduceFrom_eq_one rfl l f hRoom, rfl⟩
  | mul =>
      refine ⟨_, reduceFrom_eq_two rfl l f hRoom, ?_⟩
      simp [Level.frame, Chain.extend, Chain.entries, ProductOp.toBinary]
  | div =>
      refine ⟨_, reduceFrom_eq_two rfl l f hRoom, ?_⟩
      simp [Level.frame, Chain.extend, Chain.entries, ProductOp.toBinary]

/-- Only the entry of the operator itself needs room. -/
theorem pushBinary_frame (l : Level) (f : Factor) (op : BinaryOp) (groups : Nat)
    (hRoom : (l.operands ++ operands).length < capacity) :
    pushBinary capacity op ⟨f.expr :: (l.operands ++ operands), l.frame ++ entries, groups⟩ =
      let next : Level := ⟨l.extend (l.wrap f) op, []⟩
      if capacity < (next.frame ++ entries).length then .error (.stackFull .operator)
      else .ok ⟨next.operands ++ operands, next.frame ++ entries, groups⟩ := by
  obtain ⟨rest, hReduced, hFrame⟩ := reduceFrom_extend entries l f op hRoom
  simp only [pushBinary, hReduced, bind, Except.bind, pushOperator, ← hFrame, List.length_cons,
    Nat.lt_succ_iff]

variable (limits : Limits) (base : Stacks)

/-- The stacks with the given groups on top of `base`, and complete operands on top of theirs. -/
def holding (l : Level) (outer : List Level) (complete : List Expr) : Stacks where
  operands := complete ++ (l.operands ++ (outer.flatMap (·.operands) ++ base.operands))
  operators := l.frame ++ (outer.flatMap (·.frame) ++ base.operators)
  openGroups := base.openGroups + outer.length

/-- One more expression on top of the operands. -/
def withValue (e : Expr) : Stacks := { base with operands := e :: base.operands }

end Stacks

namespace Grammar.Reading

variable (limits : Limits) (base : Stacks)

/-- What the limits say to going on with a token to a reading. A group is refused before anything
is put on a stack for it. -/
def check (t : Token) : Reading → Except ParseError Unit
  | .due l outer =>
    if t.kind = .openParen ∧ limits.maxDepth < base.openGroups + outer.length then
      .error (.tooDeep limits.maxDepth t.span)
    else if limits.stackCapacity < (base.holding l outer []).operators.length then
      .error (.stackFull .operator)
    else .ok ()
  | .done c outer f =>
    if limits.stackCapacity < (base.holding ⟨c, []⟩ outer [f.expr]).operands.length then
      .error (.stackFull .operand)
    else .ok ()

/-- The error at a token that cannot stand behind a reading. -/
def rejection (t : Token) : Reading → ParseError
  | .due .. => .expectedExpression t.text t.span
  | .done .. => .expectedCloseParen t.text t.span

/-- Reads tokens up to the end of the sentence, and answers those that follow it. -/
def finish : Reading → List Token → Except ParseError (Sum × List Token)
  | r, [] =>
    match r.sum? with
    | some s => .ok (s, [])
    | none => .error .unexpectedEnd
  | r, t :: tokens =>
    match r.step t.kind with
    | some next => do
      next.check limits base t
      next.finish tokens
    | none =>
      match r.sum? with
      | some s => .ok (s, t :: tokens)
      | none => .error (r.rejection t)

variable {limits base}

/-- A complete operand that the limits let pass has room on its stack. -/
theorem le_of_check_done {t : Token} {c : Chain} {outer : List Level} {f : Factor}
    (hCheck : (done c outer f).check limits base t = .ok ()) :
    (base.holding ⟨c, []⟩ outer [f.expr]).operands.length ≤ limits.stackCapacity := by
  by_cases hFull : limits.stackCapacity < (base.holding ⟨c, []⟩ outer [f.expr]).operands.length
  · rw [check, if_pos hFull] at hCheck
    cases hCheck
  · exact Nat.not_lt.mp hFull

end Grammar.Reading

namespace Stacks

variable {limits : Limits} {base : Stacks}

/-- Where a group ends, what was read of it is one operand. -/
theorem leave_holding (l : Level) (outer : List Level) (f : Factor)
    (hRoom : (base.holding l outer [f.expr]).operands.length ≤ limits.stackCapacity) :
    (base.holding l outer [f.expr]).leave limits.stackCapacity =
      .ok { operands := (l.sum (l.wrap f)).expr :: (outer.flatMap (·.operands) ++ base.operands)
            operators := outer.flatMap (·.frame) ++ base.operators
            openGroups := base.openGroups + outer.length } :=
  leave_frame l f _ hRoom

/-- The stacks behind a closed group are those that hold it as an operand of the next one. -/
theorem leave_holding_cons (l m : Level) (outer : List Level) (f : Factor)
    (hRoom : (base.holding l (m :: outer) [f.expr]).operands.length ≤ limits.stackCapacity) :
    ∃ s, (base.holding l (m :: outer) [f.expr]).leave limits.stackCapacity = .ok s ∧
      { s with openGroups := base.openGroups + (m :: outer).length - 1 } =
        base.holding m outer [(Factor.group (l.sum (l.wrap f))).expr] := by
  refine ⟨_, leave_holding l (m :: outer) f hRoom, ?_⟩
  simp [holding, Factor.expr]

theorem pushOperator_eq (entry : Entry) (s : Stacks) :
    pushOperator capacity entry s =
      if capacity < (entry :: s.operators).length then .error (.stackFull .operator)
      else .ok { s with operators := entry :: s.operators } := by
  simp only [pushOperator, List.length_cons, Nat.lt_succ_iff]

/-- A new group has its marker on top of all that waits outside. -/
theorem holding_start (l : Level) (outer : List Level) :
    base.holding .start (l :: outer) [] =
      { base.holding l outer [] with
        operators := .marker :: (base.holding l outer []).operators
        openGroups := (base.holding l outer []).openGroups + 1 } := by
  have hFrame : Level.start.frame = [.marker] := rfl
  have hOperands : Level.start.operands = [] := rfl
  simp [holding, hFrame, hOperands, Nat.add_assoc]

/-- Reading a number is the step of the reading, checked for room. Each move of the reader is such
a step, which passes the check of the limits. -/
theorem readOperand_number {t : Token} {x : Float} (hKind : t.kind = .number x) (l : Level)
    (outer : List Level) :
    (base.holding l outer []).readOperand limits t =
      ((Reading.done l.toChain outer (l.wrap (.number x))).check limits base t).map fun _ =>
        (.operandDone, base.holding l outer [(Factor.number x).expr]) := by
  have hLength : (base.holding ⟨l.toChain, []⟩ outer [(l.wrap (.number x)).expr]).operands.length =
      (base.holding l outer []).operands.length + 1 := rfl
  simp only [readOperand, hKind, Reading.check, pushOperand, hLength, Nat.lt_succ_iff]
  split
  · rfl
  · rfl

/-- Opening a group is the step of the reading, checked for the depth first and then for room. -/
theorem readOperand_openParen {t : Token} (hKind : t.kind = .openParen) (l : Level)
    (outer : List Level) :
    (base.holding l outer []).readOperand limits t =
      ((Reading.due .start (l :: outer)).check limits base t).map fun _ =>
        (.operandDue, base.holding .start (l :: outer) []) := by
  have hGroups : base.openGroups + (l :: outer).length =
      (base.holding l outer []).openGroups + 1 := rfl
  simp only [readOperand, hKind, Reading.check, true_and, pushOperator_eq, hGroups,
    Nat.lt_succ_iff, holding_start]
  split
  · rfl
  · split
    · rfl
    · rfl

/-- An operator in front of an operand is pushed without reducing. A minus sign is one here. -/
theorem readOperand_prefixed {t : Token} (op : PrefixOp)
    (hKind : t.kind = .operator (.prefixed op) ∨ t.kind = prefixKind op) (l : Level)
    (outer : List Level) :
    (base.holding l outer []).readOperand limits t =
      ((Reading.due (l.push op) outer).check limits base t).map fun _ =>
        (.operandDue, base.holding (l.push op) outer []) := by
  have hPushed : (base.holding (l.push op) outer []).operators =
      .operator (.prefixed op) :: (base.holding l outer []).operators := rfl
  rcases hKind with hKind | hKind
  · simp only [readOperand, hKind, Reading.check, reduceCtorEq, false_and, if_false,
      pushOperator_eq, hPushed]
    split
    · rfl
    · rfl
  · cases op <;>
      simp only [readOperand, hKind, prefixKind, Reading.check, reduceCtorEq, false_and,
        if_false, pushOperator_eq, hPushed]
    all_goals
      split
      · rfl
      · rfl

/-- A binary operator reduces what binds at least as tightly and is pushed then. -/
theorem pushBinary_holding {t : Token} {op : BinaryOp} (hKind : t.kind = .operator (.binary op))
    (l : Level) (outer : List Level) (f : Factor)
    (hRoom : (base.holding l outer [f.expr]).operands.length ≤ limits.stackCapacity) :
    (base.holding l outer [f.expr]).pushBinary limits.stackCapacity op =
      ((Reading.due ⟨l.extend (l.wrap f) op, []⟩ outer).check limits base t).map fun _ =>
        base.holding ⟨l.extend (l.wrap f) op, []⟩ outer [] := by
  simp only [Reading.check, hKind, reduceCtorEq, false_and, if_false]
  refine Eq.trans (pushBinary_frame l f op _ hRoom) ?_
  by_cases hFull : limits.stackCapacity <
      (base.holding ⟨l.extend (l.wrap f) op, []⟩ outer []).operators.length
  · rw [if_pos hFull]
    exact if_pos hFull
  · rw [if_neg hFull]
    exact if_neg hFull

/-- A closed group has room as an operand of the group around it. -/
theorem check_closeParen {t : Token} (l m : Level) (outer : List Level) (f g : Factor)
    (hRoom : (base.holding l (m :: outer) [f.expr]).operands.length ≤ limits.stackCapacity) :
    (Reading.done m.toChain outer g).check limits base t = .ok () := by
  have hLess : (base.holding ⟨m.toChain, []⟩ outer [g.expr]).operands.length ≤
      (base.holding l (m :: outer) [f.expr]).operands.length := by
    simp [holding]
  exact if_neg (Nat.not_lt.mpr (Nat.le_trans hLess hRoom))

/-- A checked move on one side and a checked step on the other go on alike. -/
theorem map_check_bind {α β γ : Type} {check : Except ParseError Unit} {a : α}
    {move : α → Except ParseError β} {rest : Except ParseError γ} {answer : γ → β}
    (hRest : check = .ok () → move a = rest.map answer) :
    ((check.map fun _ => a) >>= move) = (check >>= fun _ => rest).map answer := by
  cases check with
  | error e => rfl
  | ok => exact hRest rfl

/-- Reading on where an operand is due finishes the reading that the stacks hold. -/
def FollowsDue (limits : Limits) (base : Stacks) (tokens : List Token) : Prop :=
  ∀ l outer, readGroup limits base.openGroups .operandDue (base.holding l outer []) tokens =
    ((Reading.due l outer).finish limits base tokens).map fun answer =>
      (base.withValue answer.1.expr, answer.2)

/-- Reading on behind an operand that has found room finishes the reading that the stacks hold. -/
def FollowsDone (limits : Limits) (base : Stacks) (tokens : List Token) : Prop :=
  ∀ l outer f, (base.holding l outer [f.expr]).operands.length ≤ limits.stackCapacity →
    readGroup limits base.openGroups .operandDone (base.holding l outer [f.expr]) tokens =
      ((Reading.done l.toChain outer (l.wrap f)).finish limits base tokens).map fun answer =>
        (base.withValue answer.1.expr, answer.2)

variable {tokens : List Token}

/-- Where an operand is due, the stacks follow the reading over one more token. -/
theorem followsDue_cons (t : Token) (hDue : FollowsDue limits base tokens)
    (hDone : FollowsDone limits base tokens) : FollowsDue limits base (t :: tokens) := by
  intro l outer
  cases hKind : t.kind with
  | number x =>
      rw [readGroup, readOperand_number hKind, Reading.finish, hKind]
      exact map_check_bind fun hCheck =>
        hDone l outer (.number x) (Reading.le_of_check_done (t := t) hCheck)
  | openParen =>
      rw [readGroup, readOperand_openParen hKind, Reading.finish, hKind]
      exact map_check_bind fun _ => hDue .start (l :: outer)
  | closeParen =>
      simp only [readGroup, readOperand, Reading.finish, hKind]
      rfl
  | operator op =>
      rcases op with op | op
      · cases op with
        | sub =>
            rw [readGroup, readOperand_prefixed .neg (.inr hKind), Reading.finish, hKind]
            exact map_check_bind fun _ => hDue (l.push .neg) outer
        | add | mul | div =>
            simp only [readGroup, readOperand, Reading.finish, hKind]
            rfl
      · rw [readGroup, readOperand_prefixed op (.inl hKind), Reading.finish, hKind]
        exact map_check_bind fun _ => hDue (l.push op) outer

theorem followsDone_nil : FollowsDone limits base [] := by
  intro l outer f hRoom
  rw [readGroup, leave_holding l outer f hRoom]
  cases outer with
  | nil => exact if_pos (Nat.le_refl _)
  | cons m outer => exact if_neg (Nat.not_le.mpr (Nat.lt_add_of_pos_right (Nat.succ_pos _)))

theorem readGroup_done_cons {t : Token} (hOther : ∀ op, t.kind ≠ .operator (.binary op))
    (groups : Nat) (s : Stacks) :
    readGroup limits groups .operandDone s (t :: tokens) =
      s.leave limits.stackCapacity >>= fun left =>
        if s.openGroups ≤ groups then pure (left, t :: tokens)
        else match t.kind with
          | .closeParen =>
            readGroup limits groups .operandDone { left with openGroups := s.openGroups - 1 } tokens
          | _ => .error (.expectedCloseParen t.text t.span) := by
  rw [readGroup]
  split
  · rename_i op hKind
    exact absurd hKind (hOther op)
  · rfl

/-- Behind an operand, the stacks follow the reading over one more token: over an operator, over the
end of a group inside, or to the end of the own group. -/
theorem followsDone_cons (t : Token) (hDue : FollowsDue limits base tokens)
    (hDone : FollowsDone limits base tokens) : FollowsDone limits base (t :: tokens) := by
  intro l outer f hRoom
  by_cases hBinary : ∃ op, t.kind = .operator (.binary op)
  · obtain ⟨op, hKind⟩ := hBinary
    rw [readGroup, Reading.finish, hKind]
    simp only [Reading.step, pushBinary_holding hKind l outer f hRoom]
    exact map_check_bind fun _ => hDue ⟨l.extend (l.wrap f) op, []⟩ outer
  · have hOther : ∀ op, t.kind ≠ .operator (.binary op) := fun op hKind => hBinary ⟨op, hKind⟩
    rw [readGroup_done_cons hOther, Reading.finish]
    cases outer with
    | nil =>
        rw [leave_holding l [] f hRoom]
        have hStep : (Reading.done l.toChain [] (l.wrap f)).step t.kind = none := by
          cases hKind : t.kind with
          | number x | openParen | closeParen => rfl
          | operator op =>
              cases op with
              | binary op => exact absurd hKind (hOther op)
              | prefixed op => rfl
        rw [hStep]
        exact if_pos (Nat.le_refl _)
    | cons m outer =>
        obtain ⟨left, hLeave, hLeft⟩ := leave_holding_cons l m outer f hRoom
        have hOpen : ¬ (base.holding l (m :: outer) [f.expr]).openGroups ≤ base.openGroups :=
          Nat.not_le.mpr (Nat.lt_add_of_pos_right (Nat.succ_pos _))
        simp only [hLeave, bind, Except.bind, if_neg hOpen]
        cases hKind : t.kind with
        | number x | openParen => rfl
        | operator op =>
            cases op with
            | binary op => exact absurd hKind (hOther op)
            | prefixed op => rfl
        | closeParen =>
            have hCheck := check_closeParen (t := t) l m outer f
              (m.wrap (.group (l.sum (l.wrap f)))) hRoom
            simp only [Reading.step, hCheck]
            refine (congrArg (readGroup limits _ _ · tokens) hLeft).trans (hDone m outer _ ?_)
            exact Reading.le_of_check_done (t := t) hCheck

/-- Reading from stacks that hold a reading finishes that reading. The induction is on the tokens,
over both phases together. -/
theorem follows (limits : Limits) (base : Stacks) (tokens : List Token) :
    FollowsDue limits base tokens ∧ FollowsDone limits base tokens := by
  induction tokens with
  | nil => exact ⟨fun l outer => rfl, followsDone_nil⟩
  | cons t tokens ih =>
      exact ⟨followsDue_cons t ih.1 ih.2, followsDone_cons t ih.1 ih.2⟩

/-- An expression is read on top of any stacks as it is read by itself, but for the room that the
stacks have left. -/
theorem readExpr_eq (limits : Limits) (base : Stacks) (tokens : List Token) :
    base.readExpr limits tokens =
      if limits.stackCapacity ≤ base.operators.length then .error (.stackFull .operator)
      else (Reading.start.finish limits base tokens).map fun answer =>
        (base.withValue answer.1.expr, answer.2) := by
  rw [readExpr, pushOperator]
  split
  · rfl
  · exact (follows limits base tokens).1 .start []

end Stacks

/-- A list of tokens is an expression when it is one sentence and nothing more. -/
theorem Expr.ofTokens_eq (limits : Limits) (tokens : List Token) :
    ofTokens limits tokens =
      if limits.stackCapacity = 0 then .error (.stackFull .operator)
      else Reading.start.finish limits .empty tokens >>= fun
        | (s, []) => .ok s.expr
        | (_, t :: _) => .error (.unexpectedToken t.text t.span) := by
  have hEmpty : limits.stackCapacity ≤ Stacks.empty.operators.length ↔
      limits.stackCapacity = 0 := Nat.le_zero
  simp only [ofTokens, Stacks.readExpr_eq, hEmpty]
  split
  · rfl
  · rcases Reading.start.finish limits .empty tokens with e | ⟨s, _ | ⟨t, rest⟩⟩
    · rfl
    · rfl
    · rfl

end Formula
