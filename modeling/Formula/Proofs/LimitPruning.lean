import Mathlib.Order.Basic
import Formula.Proofs.StackReading

/-! Limits only prune. An answer that reports no limit is the answer under all larger limits too,
whether it is an expression or an error: every check of a limit comes before what it guards, and
nothing that is read depends on how much room is left. -/
namespace Formula

open Grammar

/-- Limits are compared one by one. -/
instance : Preorder Limits where
  le small large := small.maxTokens ≤ large.maxTokens ∧
    small.stackCapacity ≤ large.stackCapacity ∧ small.maxDepth ≤ large.maxDepth ∧
      small.maxLiteralLength ≤ large.maxLiteralLength
  le_refl limits := ⟨Nat.le_refl _, Nat.le_refl _, Nat.le_refl _, Nat.le_refl _⟩
  le_trans _ _ _ hFirst hSecond :=
    ⟨Nat.le_trans hFirst.1 hSecond.1, Nat.le_trans hFirst.2.1 hSecond.2.1,
      Nat.le_trans hFirst.2.2.1 hSecond.2.2.1, Nat.le_trans hFirst.2.2.2 hSecond.2.2.2⟩

/-- Two limits have others above both of them. -/
theorem Limits.exists_common (limits limits' : Limits) :
    ∃ large, limits ≤ large ∧ limits' ≤ large :=
  ⟨⟨max limits.maxTokens limits'.maxTokens, max limits.stackCapacity limits'.stackCapacity,
      max limits.maxDepth limits'.maxDepth,
      max limits.maxLiteralLength limits'.maxLiteralLength⟩,
    ⟨Nat.le_max_left _ _, Nat.le_max_left _ _, Nat.le_max_left _ _, Nat.le_max_left _ _⟩,
    ⟨Nat.le_max_right _ _, Nat.le_max_right _ _, Nat.le_max_right _ _, Nat.le_max_right _ _⟩⟩

/-- Whether an error says that a limit of the reader is too small for the text. -/
def ParseError.isLimit : ParseError → Bool
  | .literalTooLong .. | .tooLong _ | .stackFull _ | .tooDeep .. => true
  | .unexpectedCharacter .. | .unknownName .. | .unexpectedEnd | .expectedCloseParen ..
  | .expectedExpression .. | .unexpectedToken .. | .stackEmpty _ => false

/-- The first answer is the second one, or it reports a limit in its place. -/
inductive Pruned {α : Type} : Except ParseError α → Except ParseError α → Prop where
  | same (answer : Except ParseError α) : Pruned answer answer
  | limit {e : ParseError} (hLimit : e.isLimit = true) (answer : Except ParseError α) :
      Pruned (.error e) answer

namespace Pruned

variable {α β : Type} {x y : Except ParseError α}

/-- Pruning composes: where the first part reports no limit, both go on from one value. -/
theorem bind {f g : α → Except ParseError β} (hFirst : Pruned x y)
    (hRest : ∀ a, Pruned (f a) (g a)) : Pruned (x >>= f) (y >>= g) := by
  cases hFirst with
  | limit hLimit => exact .limit hLimit _
  | same =>
      cases x with
      | error e => exact .same _
      | ok a => exact hRest a

/-- A check that lets more pass prunes less. -/
theorem guard {narrow wide : Prop} [Decidable narrow] [Decidable wide] {e e' : ParseError}
    (hLimit : e.isLimit = true) (hWide : wide → narrow) (hRest : Pruned x y) :
    Pruned (if narrow then .error e else x) (if wide then .error e' else y) := by
  by_cases hNarrow : narrow
  · rw [if_pos hNarrow]
    exact .limit hLimit _
  · rw [if_neg hNarrow, if_neg (fun h => hNarrow (hWide h))]
    exact hRest

/-- An answer that is not pruned is the same under both limits. -/
theorem eq_of_not_isLimit (hPruned : Pruned x y)
    (hAnswer : ∀ e, x = .error e → e.isLimit = false) : y = x := by
  cases hPruned with
  | same => rfl
  | @limit e hLimit =>
      have hOther := hAnswer e rfl
      rw [hLimit] at hOther
      cases hOther

end Pruned

variable {small large : Limits}

/-- The checks of the lexer let more pass under larger limits, lexeme by lexeme. -/
theorem pruned_ofLexemes (hLe : small ≤ large) (index : Nat) (lexemes : List Lexeme) :
    Pruned (Token.ofLexemes small index lexemes) (Token.ofLexemes large index lexemes) := by
  obtain ⟨hTokens, _, _, hLength⟩ := hLe
  induction lexemes generalizing index with
  | nil => exact .same _
  | cons l lexemes ih =>
      have hLexeme : Pruned (Token.ofLexemeAt small index l) (Token.ofLexemeAt large index l) := by
        apply Pruned.guard rfl
        · exact fun hMany => Nat.le_trans hTokens hMany
        · apply Pruned.guard rfl
          · exact fun hLong => ⟨hLong.1, Nat.lt_of_le_of_lt hLength hLong.2⟩
          · exact .same _
      exact hLexeme.bind fun _ => (ih (index + 1)).bind fun _ => .same _

namespace Grammar.Reading

/-- A step has checks for the depth and for the capacity alone. -/
theorem pruned_check (hLe : small ≤ large) (base : Stacks) (r : Reading) (t : Token) :
    Pruned (r.check small base t) (r.check large base t) := by
  obtain ⟨_, hCapacity, hDepth, _⟩ := hLe
  cases r with
  | due l outer =>
      apply Pruned.guard rfl
      · exact fun hDeep => ⟨hDeep.1, Nat.lt_of_le_of_lt hDepth hDeep.2⟩
      · apply Pruned.guard rfl
        · exact fun hFull => Nat.lt_of_le_of_lt hCapacity hFull
        · exact .same _
  | done c outer f =>
      apply Pruned.guard rfl
      · exact fun hFull => Nat.lt_of_le_of_lt hCapacity hFull
      · exact .same _

/-- Both readings make the same steps until a check of the smaller limits stops the first one. -/
theorem pruned_finish (hLe : small ≤ large) (base : Stacks) (r : Reading) (tokens : List Token) :
    Pruned (r.finish small base tokens) (r.finish large base tokens) := by
  induction tokens generalizing r with
  | nil => exact .same _
  | cons t tokens ih =>
      rw [finish, finish]
      cases r.step t.kind with
      | none => exact .same _
      | some next => exact (pruned_check hLe base next t).bind fun _ => ih next

end Grammar.Reading

theorem Expr.pruned_ofTokens (hLe : small ≤ large) (tokens : List Token) :
    Pruned (ofTokens small tokens) (ofTokens large tokens) := by
  rw [ofTokens_eq, ofTokens_eq]
  apply Pruned.guard rfl
  · exact fun hNone => Nat.le_zero.mp (hNone ▸ hLe.2.1)
  · exact (Reading.pruned_finish hLe .empty .start tokens).bind fun _ => .same _

/-- What the reader answers under some limits, it answers under all larger ones, unless the answer
is that a limit is too small. -/
theorem parse_eq_of_le (hLe : small ≤ large) (text : String)
    (hAnswer : ∀ e, Expr.parse small text = .error e → e.isLimit = false) :
    Expr.parse large text = Expr.parse small text := by
  have hTokens := pruned_ofLexemes hLe 0 (Lexeme.scan 0 text.toList)
  have hParse : Pruned (Expr.parse small text) (Expr.parse large text) :=
    hTokens.bind fun tokens => Expr.pruned_ofTokens hLe tokens
  exact hParse.eq_of_not_isLimit hAnswer

/-- Limits that the text just fits into are enough to tell what is wrong with it. -/
theorem parse_sign_in_group :
    let tight : Limits := ⟨4, 3, 1, 1⟩
    tight ≤ .standard ∧
      (∀ e, Expr.parse tight "(1+)" = .error e → e.isLimit = false) ∧
        Expr.parse .standard "(1+)" = .error (.expectedExpression ")" ⟨3, 4⟩) := by
  intro tight
  have hLe : tight ≤ .standard := ⟨by decide, by decide, by decide, by decide⟩
  have hTokens : Token.ofChars tight "(1+)".toList =
      .ok [⟨.openParen, ⟨0, 1⟩⟩, ⟨.number 1, ⟨1, 2⟩⟩, ⟨.operator (.binary .add), ⟨2, 3⟩⟩,
        ⟨.closeParen, ⟨3, 4⟩⟩] := by
    rw [String.toList_ofList]
    decide +kernel
  have hTight : Expr.parse tight "(1+)" = .error (.expectedExpression ")" ⟨3, 4⟩) := by
    rw [Expr.parse, Expr.ofChars, hTokens]
    rfl
  have hAnswer : ∀ e, Expr.parse tight "(1+)" = .error e → e.isLimit = false := by
    intro e hError
    cases hTight.symm.trans hError
    rfl
  exact ⟨hLe, hAnswer, (parse_eq_of_le hLe "(1+)" hAnswer).trans hTight⟩

end Formula
