import Formula.Proofs.Acceptance
import Formula.Proofs.Cutting

/-! Where a text that is no expression goes wrong. The tokens in front of the reported one can
still become a sentence, and together with it they cannot, so no earlier place could be reported
and every later one would be too late. -/
namespace Formula

namespace Grammar

/-- Tokens that a sentence can begin with. -/
def Viable (kinds : List TokenKind) : Prop := ∃ more, IsSentence (kinds ++ more)

/-- Tokens behind which an operand has to follow. There are none, or the last of them is an
operator or opens a group. -/
def OperandDue (kinds : List TokenKind) : Prop :=
  ∀ k ∈ kinds.getLast?, k = .openParen ∨ ∃ op, k = .operator op

/-- Groups that are opened and not closed. -/
def openGroups (kinds : List TokenKind) : Nat :=
  kinds.count .openParen - kinds.count .closeParen

namespace Reading

def isDue : Reading → Bool
  | .due .. => true
  | .done .. => false

/-- The groups around the innermost one. -/
def groups : Reading → List Level
  | .due _ outer => outer
  | .done _ outer _ => outer

/-- An operand is due behind an open parenthesis and behind an operator, whatever came before. -/
theorem isDue_step {r next : Reading} {k : TokenKind} (hStep : r.step k = some next) :
    next.isDue = true ↔ k = .openParen ∨ ∃ op, k = .operator op := by
  unfold step at hStep
  split at hStep <;> cases hStep <;> simp [isDue]

/-- The last token alone tells whether an operand is due. -/
theorem operandDue_iff {kinds : List TokenKind} {last : Reading}
    (hRun : start.run kinds = some last) : OperandDue kinds ↔ last.isDue = true := by
  rcases List.eq_nil_or_concat' kinds with rfl | ⟨before, k, rfl⟩
  · cases hRun
    simp [OperandDue, start, isDue]
  · rw [run_append] at hRun
    obtain ⟨r, _, hLast⟩ := Option.bind_eq_some_iff.mp hRun
    obtain ⟨next, hStep, hNext⟩ := Option.bind_eq_some_iff.mp hLast
    cases hNext
    rw [isDue_step hStep]
    simp [OperandDue]

/-- A step opens or closes the group that its parenthesis does, and no other. -/
theorem groups_step {r next : Reading} {k : TokenKind} (hStep : r.step k = some next) :
    next.groups.length + [k].count .closeParen = r.groups.length + [k].count .openParen := by
  unfold step at hStep
  split at hStep <;> cases hStep <;> simp [groups]

theorem groups_run {r last : Reading} {kinds : List TokenKind} (hRun : r.run kinds = some last) :
    last.groups.length + kinds.count .closeParen = r.groups.length + kinds.count .openParen := by
  induction kinds generalizing r with
  | nil =>
      cases hRun
      rfl
  | cons k kinds ih =>
      obtain ⟨next, hStep, hRest⟩ := Option.bind_eq_some_iff.mp hRun
      have hFirst := groups_step hStep
      have hOthers := ih hRest
      rw [← List.singleton_append, List.count_append, List.count_append]
      omega

/-- The groups of a reading are the parentheses that are open among the tokens. -/
theorem openGroups_eq {kinds : List TokenKind} {last : Reading}
    (hRun : start.run kinds = some last) : openGroups kinds = last.groups.length := by
  have hGroups := groups_run hRun
  have hStart : start.groups.length = 0 := rfl
  rw [openGroups]
  omega

/-- Behind an operand, one parenthesis for each open group completes the sentence. -/
theorem run_closeParens (outer : List Level) (c : Chain) (f : Factor) :
    ∃ last s, (done c outer f).run (List.replicate outer.length .closeParen) = some last ∧
      last.sum? = some s := by
  induction outer generalizing c f with
  | nil => exact ⟨_, _, rfl, rfl⟩
  | cons l outer ih => exact ih l.toChain (l.wrap (.group (c.sum f)))

/-- Every reading can go on to a whole sentence. -/
theorem exists_completion (r : Reading) :
    ∃ more last s, r.run more = some last ∧ last.sum? = some s ∧
      .operator (.prefixed .neg) ∉ more := by
  cases r with
  | due l outer =>
      obtain ⟨last, s, hRun, hSum⟩ := run_closeParens outer l.toChain (l.wrap (.number 0))
      exact ⟨.number 0 :: List.replicate outer.length .closeParen, last, s, hRun, hSum,
        by simp⟩
  | done c outer f =>
      obtain ⟨last, s, hRun, hSum⟩ := run_closeParens outer c f
      exact ⟨List.replicate outer.length .closeParen, last, s, hRun, hSum, by simp⟩

end Reading

/-- The tokens that can be read are those that a sentence can begin with. -/
theorem viable_iff_run {kinds : List TokenKind}
    (hWritten : .operator (.prefixed .neg) ∉ kinds) :
    Viable kinds ↔ ∃ r, Reading.start.run kinds = some r := by
  constructor
  · intro hViable
    obtain ⟨more, s, hKinds⟩ := hViable
    have hRun := Reading.run_start_sum s
    rw [hKinds, Reading.run_append] at hRun
    obtain ⟨r, hRead, _⟩ := Option.bind_eq_some_iff.mp hRun
    exact ⟨r, hRead⟩
  · intro hRead
    obtain ⟨r, hRead⟩ := hRead
    obtain ⟨more, last, s, hMore, hSum, hPlain⟩ := r.exists_completion
    refine ⟨more, s, ?_⟩
    apply (kinds_eq_iff_run s _).mpr
    · refine ⟨last, ?_, hSum⟩
      rw [Reading.run_append, hRead]
      exact hMore
    · intro hNeg
      exact (List.mem_append.mp hNeg).elim hWritten hPlain

/-- A token that cannot be read is not in any sentence at this place. -/
theorem not_viable_of_step {kinds : List TokenKind} {k : TokenKind} {last : Reading}
    (hRun : Reading.start.run kinds = some last) (hStep : last.step k = none)
    (hWritten : .operator (.prefixed .neg) ∉ kinds ++ [k]) : ¬ Viable (kinds ++ [k]) := by
  rw [viable_iff_run hWritten]
  intro hRead
  obtain ⟨r, hRead⟩ := hRead
  rw [Reading.run_append, hRun, Option.bind_some, Reading.run, hStep] at hRead
  cases hRead

namespace Reading

variable {limits : Limits}

/-- The reader goes on as far as the tokens can be read, when the limits never bind. -/
theorem finish_of_within {r : Reading} {tokens : List Token} (hFits : r.Fits limits)
    (hWidth : r.Within 1 limits.stackCapacity (tokens.map (·.kind)))
    (hDepth : r.Within 0 (limits.maxDepth + 1) (tokens.map (·.kind))) :
    ∃ before rest last, tokens = before ++ rest ∧ r.run (before.map (·.kind)) = some last ∧
      (∀ t ∈ rest.head?, last.step t.kind = none) ∧
        r.finish limits .empty tokens = last.finish limits .empty rest := by
  induction tokens generalizing r with
  | nil => exact ⟨[], [], r, rfl, rfl, by simp, rfl⟩
  | cons t tokens ih =>
      cases hStep : r.step t.kind with
      | none => exact ⟨[], t :: tokens, r, rfl, rfl, by simpa using hStep, rfl⟩
      | some next =>
          obtain ⟨hLoad, hWidth⟩ := hWidth next hStep
          obtain ⟨hLevel, hDepth⟩ := hDepth next hStep
          have hCheck := (check_eq_ok_iff hStep hFits).mpr ⟨hLoad, hLevel⟩
          obtain ⟨before, rest, last, hTokens, hRun, hStop, hFinish⟩ :=
            ih ⟨hLoad, hLevel⟩ hWidth hDepth
          refine ⟨t :: before, rest, last, by rw [hTokens]; rfl, ?_, hStop, ?_⟩
          · rw [List.map_cons, run, hStep]
            exact hRun
          · rw [finish, hStep, ← hFinish]
            simp only [hCheck, bind, Except.bind]

theorem finish_start {tokens : List Token} (hCapacity : tokens.length + 1 ≤ limits.stackCapacity)
    (hDepth : tokens.length ≤ limits.maxDepth) :
    ∃ before rest last, tokens = before ++ rest ∧ start.run (before.map (·.kind)) = some last ∧
      (∀ t ∈ rest.head?, last.step t.kind = none) ∧
        start.finish limits .empty tokens = last.finish limits .empty rest := by
  have hFits : start.Fits limits := by
    rw [Fits, load_start, load_start]
    omega
  apply finish_of_within hFits
  · apply within_of_length (Nat.le_refl 1)
    rw [load_start, List.length_map]
    omega
  · apply within_of_length (Nat.zero_le 1)
    rw [load_start, List.length_map]
    omega

end Reading

end Grammar

open Grammar

/-- The error at a token with which no sentence goes on behind the given ones: each of the three
kinds of error belongs to one situation in front of the token. -/
structure Misplaced (before : List TokenKind) (t : Token) (e : ParseError) : Prop where
  viable : Viable before
  notViable : ¬ Viable (before ++ [t.kind])
  expectedExpression : e = .expectedExpression t.text t.span ↔ OperandDue before
  expectedCloseParen :
    e = .expectedCloseParen t.text t.span ↔ ¬ OperandDue before ∧ 0 < openGroups before
  unexpectedToken :
    e = .unexpectedToken t.text t.span ↔ ¬ OperandDue before ∧ openGroups before = 0

/-- The reader reports a misplaced token by what it has read in front of it. -/
theorem misplaced_rejection {kinds : List TokenKind} {t : Token} {last : Reading}
    (hRun : Reading.start.run kinds = some last) (hStep : last.step t.kind = none)
    (hWritten : .operator (.prefixed .neg) ∉ kinds ++ [t.kind]) :
    Misplaced kinds t (last.sum?.elim (last.rejection t) fun _ =>
      .unexpectedToken t.text t.span) := by
  have hBefore : .operator (.prefixed .neg) ∉ kinds :=
    fun hNeg => hWritten (List.mem_append_left _ hNeg)
  have hViable := (viable_iff_run hBefore).mpr ⟨last, hRun⟩
  have hNot := not_viable_of_step hRun hStep hWritten
  have hDue := Reading.operandDue_iff hRun
  have hGroups := Reading.openGroups_eq hRun
  -- One case for each of the situations in front of the token.
  rcases last with ⟨l, outer⟩ | ⟨c, _ | ⟨l, outer⟩, f⟩
  · have hDue : OperandDue kinds := hDue.mpr rfl
    constructor <;> simp [Reading.sum?, Reading.rejection, hViable, hNot, hDue]
  · have hDone : ¬ OperandDue kinds := by simp [hDue, Reading.isDue]
    have hNone : openGroups kinds = 0 := hGroups
    constructor <;> simp [Reading.sum?, hViable, hNot, hDone, hNone]
  · have hDone : ¬ OperandDue kinds := by simp [hDue, Reading.isDue]
    have hSome : openGroups kinds = outer.length + 1 := hGroups
    constructor <;> simp [Reading.sum?, Reading.rejection, hViable, hNot, hDone, hSome]

/-- Tokens that end where no sentence ends. -/
structure Unfinished (kinds : List TokenKind) : Prop where
  viable : Viable kinds
  notSentence : ¬ IsSentence kinds

/-- Tokens that have been read without making a sentence can still become one. -/
theorem unfinished_of_run {kinds : List TokenKind} {last : Reading}
    (hRun : Reading.start.run kinds = some last) (hSum : last.sum? = none)
    (hWritten : .operator (.prefixed .neg) ∉ kinds) : Unfinished kinds := by
  refine ⟨(viable_iff_run hWritten).mpr ⟨last, hRun⟩, ?_⟩
  intro hSentence
  obtain ⟨s, hKinds⟩ := hSentence
  obtain ⟨r, hRead, hWhole⟩ := (kinds_eq_iff_run s hWritten).mp hKinds
  cases hRun.symm.trans hRead
  rw [hSum] at hWhole
  cases hWhole

/-- When no limit is in the way, a list of tokens is refused because it ends too early or for its
first token that no sentence goes on with. -/
theorem Expr.ofTokens_error {limits : Limits} {tokens : List Token} {e : ParseError}
    (hWritten : .operator (.prefixed .neg) ∉ tokens.map (·.kind))
    (hCapacity : tokens.length + 1 ≤ limits.stackCapacity)
    (hDepth : tokens.length ≤ limits.maxDepth) (hError : ofTokens limits tokens = .error e) :
    (e = .unexpectedEnd ∧ Unfinished (tokens.map (·.kind))) ∨
      ∃ before t after, tokens = before ++ t :: after ∧
        Misplaced (before.map (·.kind)) t e := by
  obtain ⟨before, rest, last, rfl, hRun, hStop, hFinish⟩ :=
    Reading.finish_start hCapacity hDepth
  rw [ofTokens_eq, if_neg (by omega), hFinish] at hError
  cases rest with
  | nil =>
      left
      rw [List.append_nil] at hWritten ⊢
      cases hSum : last.sum? with
      | some s => simp [Reading.finish, hSum, bind, Except.bind] at hError
      | none =>
          simp only [Reading.finish, hSum, bind, Except.bind, Except.error.injEq] at hError
          exact ⟨hError.symm, unfinished_of_run hRun hSum hWritten⟩
  | cons t after =>
      right
      have hStep : last.step t.kind = none := hStop t rfl
      have hFirst : .operator (.prefixed .neg) ∉ before.map (·.kind) ++ [t.kind] := by
        intro hNeg
        apply hWritten
        simp only [List.map_append, List.map_cons, List.mem_append, List.mem_cons,
          List.not_mem_nil, or_false] at hNeg ⊢
        exact hNeg.imp id Or.inl
      have hMisplaced := misplaced_rejection hRun hStep hFirst
      refine ⟨before, t, after, rfl, ?_⟩
      cases hSum : last.sum? with
      | some s =>
          simp only [Reading.finish, hStep, hSum, bind, Except.bind, Except.error.injEq]
            at hError
          rw [hSum, hError] at hMisplaced
          exact hMisplaced
      | none =>
          simp only [Reading.finish, hStep, hSum, bind, Except.bind, Except.error.injEq]
            at hError
          rw [hSum] at hMisplaced
          exact hError ▸ hMisplaced

/-- Errors in the order of tokens are reported at the earliest token that shows them. When the
limits are too large to bind, a text of known lexemes that is refused either ends too early, or is
refused at the first token with which what stands in front of it cannot become a sentence. -/
theorem parse_error_earliest (limits : Limits) (text : String) (tokens : List Token)
    (e : ParseError) (hTokens : Token.ofChars limits text.toList = .ok tokens)
    (hCapacity : tokens.length + 1 ≤ limits.stackCapacity)
    (hDepth : tokens.length ≤ limits.maxDepth) (hError : Expr.parse limits text = .error e) :
    (e = .unexpectedEnd ∧ Unfinished (tokens.map (·.kind))) ∨
      ∃ before t after, tokens = before ++ t :: after ∧
        Misplaced (before.map (·.kind)) t e := by
  obtain ⟨lexemes, _, _, hAll⟩ := (ofChars_eq_ok_iff limits text.toList tokens).mp hTokens
  have hWritten := neg_not_mem (forall₂_means_iff.mp ⟨tokens, rfl, hAll⟩)
  rw [Expr.parse, Expr.ofChars, hTokens] at hError
  exact Expr.ofTokens_error hWritten hCapacity hDepth hError

/-- A group may go on behind its first sign, and may not end there. -/
theorem parse_sign_closeParen :
    ∃ tokens e, Token.ofChars .standard "(-)".toList = .ok tokens ∧
      tokens.length + 1 ≤ Limits.standard.stackCapacity ∧
      tokens.length ≤ Limits.standard.maxDepth ∧ Expr.parse .standard "(-)" = .error e ∧
      e = .expectedExpression ")" ⟨2, 3⟩ ∧
      ((e = .unexpectedEnd ∧ Unfinished (tokens.map (·.kind))) ∨
        ∃ before t after, tokens = before ++ t :: after ∧
          Misplaced (before.map (·.kind)) t e) := by
  have hTokens : Token.ofChars .standard "(-)".toList =
      .ok [⟨.openParen, ⟨0, 1⟩⟩, ⟨.operator (.binary .sub), ⟨1, 2⟩⟩, ⟨.closeParen, ⟨2, 3⟩⟩] := by
    rw [String.toList_ofList]
    decide +kernel
  have hError : Expr.parse .standard "(-)" = .error (.expectedExpression ")" ⟨2, 3⟩) := by
    rw [Expr.parse, Expr.ofChars, hTokens]
    rfl
  exact ⟨_, _, hTokens, by decide, by decide, hError, rfl,
    parse_error_earliest .standard "(-)" _ _ hTokens (by decide) (by decide) hError⟩

end Formula
