import Formula.Proofs.Acceptance
import Formula.Proofs.Cutting

/-! The language of texts. A text is an expression exactly when longest match cuts it into the
words of one sentence of the grammar and the limits have room for that sentence. -/
namespace Formula

open Grammar

/-- The text is the written form of a sentence, whose numbers and names have at most `longest`
bytes. -/
def Spells (longest : Nat) (text : List Char) (s : Sum) : Prop :=
  ∃ lexemes, Cut 0 text lexemes ∧
    List.Forall₂ (Means longest) (lexemes.map (·.chars)) s.kinds

/-- Every lexeme is one token. -/
theorem length_eq_of_forall₂ {longest : Nat} {lexemes : List Lexeme} {kinds : List TokenKind}
    (hAll : List.Forall₂ (Means longest) (lexemes.map (·.chars)) kinds) :
    lexemes.length = kinds.length := by
  rw [← hAll.length_eq, List.length_map]

/-- The tokens of a text, without their places. -/
theorem exists_ofChars_iff (limits : Limits) (text : List Char) (kinds : List TokenKind) :
    (∃ tokens, Token.ofChars limits text = .ok tokens ∧ tokens.map (·.kind) = kinds) ↔
      ∃ lexemes, Cut 0 text lexemes ∧
        List.Forall₂ (Means limits.maxLiteralLength) (lexemes.map (·.chars)) kinds ∧
          kinds.length ≤ limits.maxTokens := by
  constructor
  · rintro ⟨tokens, hTokens, hKinds⟩
    obtain ⟨lexemes, hCut, hCount, hAll⟩ := (ofChars_eq_ok_iff limits text tokens).mp hTokens
    have hWords := forall₂_means_iff.mp ⟨tokens, hKinds, hAll⟩
    exact ⟨lexemes, hCut, hWords, length_eq_of_forall₂ hWords ▸ hCount⟩
  · rintro ⟨lexemes, hCut, hWords, hCount⟩
    obtain ⟨tokens, hKinds, hAll⟩ := forall₂_means_iff.mpr hWords
    rw [← length_eq_of_forall₂ hWords] at hCount
    exact ⟨tokens, (ofChars_eq_ok_iff limits text tokens).mpr ⟨lexemes, hCut, hCount, hAll⟩,
      hKinds⟩

/-- A text is read exactly when it spells a sentence that all four limits have room for. -/
theorem ofChars_eq_ok_iff_spells (limits : Limits) (text : List Char) (e : Expr) :
    Expr.ofChars limits text = .ok e ↔
      ∃ s, Spells limits.maxLiteralLength text s ∧ s.expr = e ∧
        s.kinds.length ≤ limits.maxTokens ∧ s.need ≤ limits.stackCapacity ∧
          s.nesting ≤ limits.maxDepth := by
  constructor
  · intro hOk
    cases hTokens : Token.ofChars limits text with
    | error error => simp [Expr.ofChars, hTokens, bind, Except.bind] at hOk
    | ok tokens =>
        rw [Expr.ofChars, hTokens] at hOk
        obtain ⟨lexemes, hCut, hWords, hCount⟩ :=
          (exists_ofChars_iff limits text _).mp ⟨tokens, hTokens, rfl⟩
        obtain ⟨s, hKinds, hExpr, hNeed, hNesting⟩ :=
          (Expr.ofTokens_eq_ok_iff limits tokens e (neg_not_mem hWords)).mp hOk
        rw [← hKinds] at hWords hCount
        exact ⟨s, ⟨lexemes, hCut, hWords⟩, hExpr, hCount, hNeed, hNesting⟩
  · rintro ⟨s, ⟨lexemes, hCut, hWords⟩, hExpr, hCount, hNeed, hNesting⟩
    obtain ⟨tokens, hTokens, hKinds⟩ :=
      (exists_ofChars_iff limits text _).mpr ⟨lexemes, hCut, hWords, hCount⟩
    have hWritten := neg_not_mem hWords
    rw [← hKinds] at hWritten
    rw [Expr.ofChars, hTokens]
    exact (Expr.ofTokens_eq_ok_iff limits tokens e hWritten).mpr
      ⟨s, hKinds.symm, hExpr, hNeed, hNesting⟩

/-- A text that spells a sentence spells no other one. -/
theorem Spells.unique {longest other : Nat} {text : List Char} {s t : Sum}
    (hSpells : Spells longest text s) (hOther : Spells other text t) : s = t := by
  obtain ⟨lexemes, hCut, hWords⟩ := hSpells
  obtain ⟨lexemes', hCut', hWords'⟩ := hOther
  obtain rfl : lexemes = lexemes' := hCut.unique hCut'
  exact Sum.kinds_injective (kinds_unique hWords hWords')

/-- With a stack for as many entries as there may be tokens, no sentence is refused for a full
stack, however deep it nests. -/
theorem Spells.ne_stackFull {limits : Limits} (hRoom : limits.maxTokens ≤ limits.stackCapacity)
    {longest : Nat} {text : List Char} {s : Sum} (hSpells : Spells longest text s)
    (stack : StackKind) : Expr.ofChars limits text ≠ .error (.stackFull stack) := by
  obtain ⟨lexemes, hCut, hWords⟩ := hSpells
  cases hTokens : Token.ofChars limits text with
  | error error =>
      have hLexer := ofLexemes_ne_stackFull limits 0 (Lexeme.scan 0 text) stack
      rw [← Token.ofChars, hTokens] at hLexer
      simpa [Expr.ofChars, hTokens, bind, Except.bind] using hLexer
  | ok tokens =>
      obtain ⟨lexemes', hCut', hWords', hCount⟩ :=
        (exists_ofChars_iff limits text _).mp ⟨tokens, hTokens, rfl⟩
      obtain rfl : lexemes = lexemes' := hCut.unique hCut'
      have hKinds := kinds_unique hWords hWords'
      have hNeed := s.need_le_length
      rw [← hKinds] at hCount
      rw [Expr.ofChars, hTokens]
      exact Expr.ofTokens_ne_stackFull hKinds (by omega) stack

/-- The language of the reader when its stacks hold as many entries as a text may have tokens.
It reads a text as `e` exactly when the text spells a sentence that stands for `e`, has not too
many tokens and nests not too deep. No text that spells a sentence is refused for a full stack,
and the sentence is the only one that the text spells. -/
theorem parse_eq_ok_iff_spells (limits : Limits)
    (hRoom : limits.maxTokens ≤ limits.stackCapacity) (text : String) :
    (∀ e, Expr.parse limits text = .ok e ↔
      ∃ s, Spells limits.maxLiteralLength text.toList s ∧ s.expr = e ∧
        s.kinds.length ≤ limits.maxTokens ∧ s.nesting ≤ limits.maxDepth) ∧
    (∀ longest s, Spells longest text.toList s →
      (∀ stack, Expr.parse limits text ≠ .error (.stackFull stack)) ∧
        ∀ other t, Spells other text.toList t → t = s) := by
  refine ⟨fun e => ?_, fun longest s hSpells => ⟨hSpells.ne_stackFull hRoom, ?_⟩⟩
  · rw [Expr.parse, ofChars_eq_ok_iff_spells]
    refine exists_congr fun s => and_congr_right fun _ => and_congr_right fun _ => ?_
    constructor
    · rintro ⟨hCount, _, hNesting⟩
      exact ⟨hCount, hNesting⟩
    · rintro ⟨hCount, hNesting⟩
      have hNeed := s.need_le_length
      exact ⟨hCount, by omega, hNesting⟩
  · intro other t hOther
    exact hOther.unique hSpells

/-- A name ends at the blank behind it, and the root takes the number for its operand before the
sign takes the root. -/
theorem parse_minus_root :
    Limits.standard.maxTokens ≤ Limits.standard.stackCapacity ∧
      Expr.parse .standard "-sqrt 4.5" =
        .ok (.unary .neg (.unary .sqrt (.number (Decimal.value ['4', '.', '5'])))) := by
  refine ⟨Nat.le_refl 1024, ?_⟩
  refine ((parse_eq_ok_iff_spells .standard (Nat.le_refl 1024) "-sqrt 4.5").1 _).mpr ?_
  refine ⟨.single (.single (.prefixed .neg (.prefixed .sqrt (.number _)))), ?_, rfl, ?_, ?_⟩
  · refine ⟨[⟨'-', [], 0⟩, ⟨'s', ['q', 'r', 't'], 1⟩, ⟨'4', ['.', '5'], 6⟩], ?_, ?_⟩
    · rw [String.toList_ofList]
      refine .lexeme ⟨'-', [], 0⟩ rfl (List.all_eq_true.mp rfl) (ends_cons rfl) ?_
      refine .lexeme ⟨'s', ['q', 'r', 't'], 1⟩ rfl (List.all_eq_true.mp rfl) (ends_cons rfl) ?_
      refine .blank rfl ?_
      exact .lexeme ⟨'4', ['.', '5'], 6⟩ rfl (List.all_eq_true.mp rfl) (by simp) (.nil _)
    · have hNumber : Means 30 ['4', '.', '5'] (.number (Decimal.value ['4', '.', '5'])) :=
        .number (by simp) (List.all_eq_true.mp rfl) (by decide)
      exact .cons (.binary .sub) (.cons (.root (by decide)) (.cons hNumber .nil))
  · decide
  · decide

end Formula
