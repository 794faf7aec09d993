import Formula.Proofs.Leaves
import Formula.Proofs.NumeralValue
import Formula.Proofs.Rereading

/-! Which expressions there are texts for. Whatever the reader answers is made of numbers without a
sign and the operators of the grammar; and every such expression is the answer for some text, since
parentheses can force any shape and every number without a sign has digits. -/
namespace Formula

open Binary64 Decimal Grammar

/-- A token that some word means, if words may be long enough. -/
def Written (k : TokenKind) : Prop := ∃ longest word, Means longest word k

/-- A word that is short enough for one limit is so for a larger one. -/
theorem Means.mono {longest longer : Nat} (hLonger : longest ≤ longer) {word : List Char}
    {k : TokenKind} (hMeans : Means longest word k) : Means longer word k := by
  cases hMeans with
  | number hRun hChars hLength => exact .number hRun hChars (Nat.le_trans hLength hLonger)
  | root hLength => exact .root (Nat.le_trans hLength hLonger)
  | binary op => exact .binary op
  | openParen => exact .openParen
  | closeParen => exact .closeParen

theorem exists_means_of_mem_kinds {longest : Nat} {words : List (List Char)}
    {kinds : List TokenKind} (hAll : List.Forall₂ (Means longest) words kinds) {k : TokenKind}
    (hMem : k ∈ kinds) : ∃ word, Means longest word k := by
  induction hAll with
  | nil => cases hMem
  | cons hMeans _ ih =>
      rcases List.mem_cons.mp hMem with rfl | hMem
      · exact ⟨_, hMeans⟩
      · exact ih hMem

theorem written_of_forall₂ {longest : Nat} {words : List (List Char)} {kinds : List TokenKind}
    (hAll : List.Forall₂ (Means longest) words kinds) : ∀ k ∈ kinds, Written k :=
  fun _ hMem => ⟨longest, exists_means_of_mem_kinds hAll hMem⟩

/-- Exactly the numbers without a sign have digits. Infinity has some, as large numbers are rounded
to it, and NaN has none. -/
theorem written_number_iff (x : Float) :
    Written (.number x) ↔ signBit x = false ∧ rank x ≤ infinityRank := by
  constructor
  · rintro ⟨longest, word, hMeans⟩
    cases hMeans with
    | number hRun hChars hLength =>
        obtain ⟨q, hStands⟩ := exists_standsFor hChars
        obtain ⟨hSign, hNearest⟩ := hStands.value_isNearest
        exact ⟨hSign, hNearest.isNumber⟩
  · rintro ⟨hSign, hNumber⟩
    obtain ⟨run, hRun, hChars, rfl⟩ := exists_value_eq hSign hNumber
    exact ⟨byteLength run, run, .number hRun hChars (Nat.le_refl _)⟩

/-- A blank ends every word. -/
theorem Means.cutInto {longest : Nat} {word : List Char} {k : TokenKind}
    (hMeans : Means longest word k) {text : List Char} {words : List (List Char)}
    (hText : CutInto text words) : CutInto (word ++ ' ' :: text) (word :: words) := by
  cases hMeans with
  | number hRun hChars hLength => exact hText.blank.numeral hRun hChars (ends_cons rfl)
  | root hLength => exact hText.blank.word rfl (List.all_eq_true.mp rfl) (ends_cons rfl)
  | binary op => exact Expr.cutInto_symbol op hText.blank
  | openParen => exact hText.blank.single rfl rfl
  | closeParen => exact hText.blank.single rfl rfl

/-- Tokens that all have words are the tokens of a text. -/
theorem exists_cutInto {kinds : List TokenKind} (hWritten : ∀ k ∈ kinds, Written k) :
    ∃ longest text words, CutInto text words ∧ List.Forall₂ (Means longest) words kinds := by
  induction kinds with
  | nil => exact ⟨0, [], [], cutInto_nil, .nil⟩
  | cons k kinds ih =>
      obtain ⟨⟨longest, word, hMeans⟩, hRest⟩ := List.forall_mem_cons.mp hWritten
      obtain ⟨longer, text, words, hText, hWords⟩ := ih hRest
      refine ⟨max longest longer, word ++ ' ' :: text, word :: words, hMeans.cutInto hText, ?_⟩
      exact .cons (hMeans.mono (Nat.le_max_left _ _))
        (hWords.imp fun _ _ h => h.mono (Nat.le_max_right _ _))

/-- With limits that are made for it, the reader takes every sentence whose tokens have words. -/
theorem exists_parse_eq_ok (s : Sum) (hWritten : ∀ k ∈ s.kinds, Written k) :
    ∃ limits text, Expr.parse limits text = .ok s.expr := by
  obtain ⟨longest, text, words, hText, hWords⟩ := exists_cutInto hWritten
  obtain ⟨lexemes, hCut, rfl⟩ := hText 0
  refine ⟨⟨s.kinds.length, s.need, s.nesting, longest⟩, String.ofList text, ?_⟩
  rw [Expr.parse, String.toList_ofList, ofChars_eq_ok_iff_spells]
  exact ⟨s, ⟨lexemes, hCut, hWords⟩, rfl, Nat.le_refl _, Nat.le_refl _, Nat.le_refl _⟩

namespace Expr

/-- Binary operators, negations and roots over numbers that have no sign. Infinity is one of the
numbers. -/
def Readable : Expr → Prop
  | .param _ | .resolved _ => False
  | .number x => signBit x = false ∧ rank x ≤ infinityRank
  | .binary _ left right => left.Readable ∧ right.Readable
  | .unary op operand => (op = .neg ∨ op = .sqrt) ∧ operand.Readable

/-- The unary operator stands at some node. -/
def Applies (op : UnaryOp) : Expr → Prop
  | .param _ | .resolved _ | .number _ => False
  | .binary _ left right => left.Applies op ∨ right.Applies op
  | .unary other operand => other = op ∨ operand.Applies op

variable {e : Expr}

/-- There is no way to write a parameter. -/
theorem Readable.not_mentions (hReadable : e.Readable) (p : Handle) : ¬ e.Mentions p := by
  induction e with
  | param h => exact hReadable.elim
  | resolved r => exact hReadable.elim
  | number x => exact id
  | binary op left right hLeft hRight =>
      exact not_or.mpr ⟨hLeft hReadable.1, hRight hReadable.2⟩
  | unary op operand hOperand => exact hOperand hReadable.2

theorem Readable.paramsUsed_eq_nil (hReadable : e.Readable) : e.paramsUsed = [] := by
  refine List.eq_nil_iff_forall_not_mem.mpr fun p hMem => ?_
  exact hReadable.not_mentions p ((mem_paramsUsed_iff e p).mp hMem)

/-- Of the unary operators the grammar has negation and the root. -/
theorem Readable.of_applies (hReadable : e.Readable) {op : UnaryOp} (hOp : e.Applies op) :
    op = .neg ∨ op = .sqrt := by
  induction e with
  | param h => exact hReadable.elim
  | resolved r => exact hReadable.elim
  | number x => exact hOp.elim
  | binary symbol left right hLeft hRight => exact hOp.elim (hLeft hReadable.1) (hRight hReadable.2)
  | unary other operand hOperand =>
      rcases hOp with rfl | hOp
      · exact hReadable.1
      · exact hOperand hReadable.2 hOp

/-- The numbers of a readable expression can be written. A sign in front of one is a negation. -/
theorem Readable.of_mem_constants (hReadable : e.Readable) {x : Float} (hMem : x ∈ e.constants) :
    signBit x = false ∧ rank x ≤ infinityRank := by
  induction e with
  | param h => exact hReadable.elim
  | resolved r => exact hReadable.elim
  | number y =>
      obtain rfl : x = y := by simpa [constants] using hMem
      exact hReadable
  | binary op left right hLeft hRight =>
      exact (List.mem_append.mp hMem).elim (hLeft hReadable.1) (hRight hReadable.2)
  | unary op operand hOperand => exact hOperand hReadable.2 hMem

/-- An expression that mentions no parameter has one value, in every arithmetic. -/
theorem evalWith_eq_of_not_mentions {α : Type*} (A : Arithmetic α) (v w : Valuation α)
    (hNone : ∀ p, ¬ e.Mentions p) : e.evalWith A v = e.evalWith A w :=
  evalWith_congr_of_mentions A (fun h hOccurs => absurd hOccurs (hNone h))
    fun r hOccurs => absurd hOccurs (hNone r.handle)

end Expr

namespace Grammar

/-- The factor that stands for a readable expression, with a group of parentheses around every
binary operator. -/
def Factor.ofReadable : Expr → Factor
  | .param _ | .resolved _ => .number 0
  | .number x => .number x
  | .binary op left right => .group (.ofBinary (ofReadable left) (ofReadable right) op)
  | .unary op operand => .prefixed (if op = .sqrt then .sqrt else .neg) (ofReadable operand)

variable {e : Expr}

/-- The factor that has parentheses around every operator stands for the expression. -/
theorem Factor.expr_ofReadable (hReadable : e.Readable) : (ofReadable e).expr = e := by
  induction e with
  | param h => exact hReadable.elim
  | resolved r => exact hReadable.elim
  | number x => rfl
  | binary op left right hLeft hRight =>
      rw [ofReadable, Factor.expr, Sum.expr_ofBinary, hLeft hReadable.1, hRight hReadable.2]
  | unary op operand hOperand =>
      rw [ofReadable, Factor.expr, hOperand hReadable.2]
      rcases hReadable.1 with rfl | rfl
      · rfl
      · rfl

theorem Factor.written_ofReadable (hReadable : e.Readable) :
    ∀ k ∈ (ofReadable e).kinds, Written k := by
  induction e with
  | param h => exact hReadable.elim
  | resolved r => exact hReadable.elim
  | number x => exact List.forall_mem_singleton.mpr ((written_number_iff x).mpr hReadable)
  | binary op left right hLeft hRight =>
      have hOpen : Written .openParen := ⟨0, _, .openParen⟩
      have hClose : Written .closeParen := ⟨0, _, .closeParen⟩
      have hSymbol : Written (.operator (.binary op)) := ⟨0, _, .binary op⟩
      rw [ofReadable, Factor.kinds, Sum.kinds_ofBinary]
      have hBehind := List.forall_mem_cons.mpr ⟨hSymbol, hRight hReadable.2⟩
      have hInner := List.forall_mem_append.mpr ⟨hLeft hReadable.1, hBehind⟩
      exact List.forall_mem_append.mpr
        ⟨List.forall_mem_cons.mpr ⟨hOpen, hInner⟩, List.forall_mem_singleton.mpr hClose⟩
  | unary op operand hOperand =>
      refine List.forall_mem_cons.mpr ⟨?_, hOperand hReadable.2⟩
      rcases hReadable.1 with rfl | rfl
      · exact ⟨0, _, .binary .sub⟩
      · exact ⟨4, _, .root (Nat.le_refl 4)⟩

mutual

/-- A sum of written tokens stands for a readable expression. -/
theorem Sum.readable_expr (s : Sum) (hWritten : ∀ k ∈ s.kinds, Written k) : s.expr.Readable := by
  cases s with
  | single p => exact p.readable_expr hWritten
  | join s op p =>
      obtain ⟨hSum, hRest⟩ := List.forall_mem_append.mp hWritten
      exact ⟨s.readable_expr hSum, p.readable_expr (List.forall_mem_cons.mp hRest).2⟩

theorem Product.readable_expr (p : Product) (hWritten : ∀ k ∈ p.kinds, Written k) :
    p.expr.Readable := by
  cases p with
  | single f => exact f.readable_expr hWritten
  | join p op f =>
      obtain ⟨hProduct, hRest⟩ := List.forall_mem_append.mp hWritten
      exact ⟨p.readable_expr hProduct, f.readable_expr (List.forall_mem_cons.mp hRest).2⟩

theorem Factor.readable_expr (f : Factor) (hWritten : ∀ k ∈ f.kinds, Written k) :
    f.expr.Readable := by
  cases f with
  | number x => exact (written_number_iff x).mp (hWritten _ List.mem_cons_self)
  | group s =>
      have hInner := (List.forall_mem_cons.mp hWritten).2
      exact s.readable_expr (List.forall_mem_append.mp hInner).1
  | prefixed op f =>
      refine ⟨?_, f.readable_expr (List.forall_mem_cons.mp hWritten).2⟩
      cases op with
      | neg => exact .inl rfl
      | sqrt => exact .inr rfl

end

end Grammar

/-- What the reader answers is readable. -/
theorem readable_of_parse {limits : Limits} {text : String} {t : Expr}
    (hParse : Expr.parse limits text = .ok t) : t.Readable := by
  rw [Expr.parse, ofChars_eq_ok_iff_spells] at hParse
  obtain ⟨s, ⟨lexemes, hCut, hWords⟩, rfl, _⟩ := hParse
  exact s.readable_expr (written_of_forall₂ hWords)

/-- The answers of the reader. There are limits and a text for exactly the readable expressions.
So what was read has no parameters and no operators but those of the grammar, all its numbers are
free of signs, and its value depends on nothing. -/
theorem exists_parse_eq_ok_iff_readable (t : Expr) :
    ((∃ limits text, Expr.parse limits text = .ok t) ↔ t.Readable) ∧
      ∀ limits text, Expr.parse limits text = .ok t →
        t.paramsUsed = [] ∧ (∀ p, ¬ t.Mentions p) ∧
          (∀ op, t.Applies op → op ≠ .square ∧ op ≠ .sin ∧ op ≠ .cos) ∧
            (∀ x ∈ t.constants, signBit x = false ∧ rank x ≤ infinityRank) ∧
              ∀ s g s' g', t.eval s g = t.eval s' g' := by
  refine ⟨⟨fun ⟨limits, text, hParse⟩ => readable_of_parse hParse, fun hReadable => ?_⟩,
    fun limits text hParse => ?_⟩
  · have hExpr := Factor.expr_ofReadable hReadable
    obtain ⟨limits, text, hParse⟩ :=
      exists_parse_eq_ok (.single (.single (.ofReadable t))) (Factor.written_ofReadable hReadable)
    exact ⟨limits, text, hExpr ▸ hParse⟩
  · have hReadable := readable_of_parse hParse
    refine ⟨hReadable.paramsUsed_eq_nil, hReadable.not_mentions, fun op hOp => ?_,
      fun x hx => hReadable.of_mem_constants hx, fun s g s' g' => ?_⟩
    · rcases hReadable.of_applies hOp with rfl | rfl
      · simp
      · simp
    · exact Expr.evalWith_eq_of_not_mentions .binary64 _ _ hReadable.not_mentions

/-- The negation of infinity is read from some text, a square from none. -/
theorem exists_parse_minus_infinity :
    let t : Expr := .unary .neg (.number (ofRank false infinityRank))
    (∃ limits text, Expr.parse limits text = .ok t ∧
      t.paramsUsed = [] ∧ (∀ p, ¬ t.Mentions p) ∧
        (∀ op, t.Applies op → op ≠ .square ∧ op ≠ .sin ∧ op ≠ .cos) ∧
          (∀ x ∈ t.constants, signBit x = false ∧ rank x ≤ infinityRank) ∧
            ∀ s g s' g', t.eval s g = t.eval s' g') ∧
      ¬ ∃ limits text, Expr.parse limits text = .ok (.unary .square t) := by
  intro t
  have hReadable : t.Readable := by
    refine ⟨.inl rfl, ?_, ?_⟩
    · decide +kernel
    · decide +kernel
  obtain ⟨hRead, hHence⟩ := exists_parse_eq_ok_iff_readable t
  obtain ⟨limits, text, hParse⟩ := hRead.mpr hReadable
  refine ⟨⟨limits, text, hParse, hHence limits text hParse⟩, fun hSquare => ?_⟩
  have hOp := ((exists_parse_eq_ok_iff_readable (.unary .square t)).1.mp hSquare).1
  exact absurd hOp (by simp)

end Formula
