import Formula.Expr.Evaluation
import Formula.Proofs.PrintedWords
import Formula.Proofs.TextLanguage

/-! Reading back what was written. The written form of an expression is one group of parentheses
around another, so its sentence has the shape of the expression, and what the reader needs for it
can be counted on the expression. -/
namespace Formula

open Binary64 Decimal Grammar

namespace Expr

/-- The numbers of an expression. -/
def constants : Expr → List Float
  | .param _ | .resolved _ => []
  | .number x => [x]
  | .binary _ left right => left.constants ++ right.constants
  | .unary _ operand => operand.constants

def TakesRoot : Expr → Prop
  | .param _ | .resolved _ | .number _ => False
  | .binary _ left right => left.TakesRoot ∨ right.TakesRoot
  | .unary op operand => op = .sqrt ∨ operand.TakesRoot

/-- Tokens of the written form. The sign of a number is a token of its own. -/
def tokenCount : Expr → Nat
  | .param _ | .resolved _ => 0
  | .number x => if signBit x then 2 else 1
  | .binary _ left right => 3 + left.tokenCount + right.tokenCount
  | .unary _ operand => 3 + operand.tokenCount

/-- Most operators and open groups that wait at one place of the written form. -/
def height : Expr → Nat
  | .param _ | .resolved _ => 0
  | .number x => if signBit x then 1 else 0
  | .binary _ left right => max (1 + left.height) (2 + right.height)
  | .unary _ operand => 2 + operand.height

theorem maxDepth_pos (e : Expr) : 0 < e.maxDepth := by
  cases e <;> simp only [maxDepth] <;> omega

/-- The expression with each number as its written form reads, where a sign in front of a number
reads as a negation. -/
def reread : Expr → Expr
  | .param h => .param h
  | .resolved r => .resolved r
  | .number x =>
    if signBit x then .unary .neg (.number (value (fixed places (magnitude x))))
    else .number (value (fixed places x))
  | .binary op left right => .binary op left.reread right.reread
  | .unary op operand => .unary op operand.reread

end Expr

namespace Grammar

/-- One operator between two factors. -/
def Sum.ofBinary (left right : Factor) : BinaryOp → Sum
  | .add => .join (.single (.single left)) .plus (.single right)
  | .sub => .join (.single (.single left)) .minus (.single right)
  | .mul => .single (.join (.single left) .times right)
  | .div => .single (.join (.single left) .over right)

/-- An operator is written between its operands. -/
theorem Sum.kinds_ofBinary (left right : Factor) (op : BinaryOp) :
    (ofBinary left right op).kinds = left.kinds ++ .operator (.binary op) :: right.kinds := by
  cases op <;> simp [ofBinary, Sum.kinds, Product.kinds, SumOp.toBinary, ProductOp.toBinary]

theorem Sum.expr_ofBinary (left right : Factor) (op : BinaryOp) :
    (ofBinary left right op).expr = .binary op left.expr right.expr := by
  cases op <;> rfl

theorem Sum.nesting_ofBinary (left right : Factor) (op : BinaryOp) :
    (ofBinary left right op).nesting = max left.nesting right.nesting := by
  cases op <;> rfl

/-- Only the right operand is read while the operator waits. -/
theorem Sum.peak_ofBinary (weight : Nat) (left right : Factor) (op : BinaryOp) :
    (ofBinary left right op).peak weight =
      max (left.peak weight) (weight + right.peak weight) := by
  cases op <;> rfl

/-- The factor that the written form of a plain expression is. -/
def Factor.ofExpr : Expr → Factor
  | .param _ | .resolved _ => .number 0
  | .number x =>
    let digits := Factor.number (value (fixed Expr.places (magnitude x)))
    if signBit x then .prefixed .neg digits else digits
  | .binary op left right => .group (.ofBinary (ofExpr left) (ofExpr right) op)
  | .unary op operand =>
    .group (.single (.single (.prefixed (if op = .sqrt then .sqrt else .neg) (ofExpr operand))))

variable {e : Expr}

/-- The written form stands for the expression with each number as its digits read. -/
theorem Factor.expr_ofExpr (hPlain : e.Plain) : (ofExpr e).expr = e.reread := by
  induction e with
  | param h => exact hPlain.elim
  | resolved r => exact hPlain.elim
  | number x =>
      rw [ofExpr, Expr.reread]
      by_cases hSign : signBit x = true
      · rw [if_pos hSign, if_pos hSign]
        rfl
      · rw [if_neg hSign, if_neg hSign,
          magnitude_of_signBit_false (Bool.eq_false_iff.mpr hSign)]
        rfl
  | binary op left right hLeft hRight =>
      rw [ofExpr, Factor.expr, Sum.expr_ofBinary, hLeft hPlain.1, hRight hPlain.2]
      rfl
  | unary op operand hOperand =>
      rw [ofExpr, Expr.reread, ← hOperand hPlain.2]
      rcases hPlain.1 with rfl | rfl
      · rfl
      · rfl

/-- Every operator has a group of its own, so the parentheses nest as deep as the operators do. -/
theorem Factor.nesting_ofExpr (hPlain : e.Plain) : (ofExpr e).nesting = e.maxDepth - 1 := by
  induction e with
  | param h => exact hPlain.elim
  | resolved r => exact hPlain.elim
  | number x =>
      rw [ofExpr]
      split
      · rfl
      · rfl
  | binary op left right hLeft hRight =>
      have hFirst := left.maxDepth_pos
      have hSecond := right.maxDepth_pos
      rw [ofExpr, Factor.nesting, Sum.nesting_ofBinary, hLeft hPlain.1, hRight hPlain.2,
        Expr.maxDepth]
      omega
  | unary op operand hOperand =>
      have hInner := operand.maxDepth_pos
      rw [ofExpr, Factor.nesting, Sum.nesting, Product.nesting, Factor.nesting,
        hOperand hPlain.2, Expr.maxDepth]
      omega

/-- The room that the written form needs, counted on the expression. -/
theorem Factor.peak_ofExpr (hPlain : e.Plain) : (ofExpr e).peak 1 = e.height := by
  induction e with
  | param h => exact hPlain.elim
  | resolved r => exact hPlain.elim
  | number x =>
      rw [ofExpr, Expr.height]
      split
      · rfl
      · rfl
  | binary op left right hLeft hRight =>
      rw [ofExpr, Factor.peak, Sum.peak_ofBinary, hLeft hPlain.1, hRight hPlain.2, Expr.height]
      omega
  | unary op operand hOperand =>
      rw [ofExpr, Factor.peak, Sum.peak, Product.peak, Factor.peak, hOperand hPlain.2,
        Expr.height]
      omega

/-- The tokens of the written form, counted on the expression. -/
theorem Factor.length_kinds_ofExpr (hPlain : e.Plain) :
    (ofExpr e).kinds.length = e.tokenCount := by
  induction e with
  | param h => exact hPlain.elim
  | resolved r => exact hPlain.elim
  | number x =>
      rw [ofExpr, Expr.tokenCount]
      split
      · rfl
      · rfl
  | binary op left right hLeft hRight =>
      simp only [ofExpr, Factor.kinds, Sum.kinds_ofBinary, List.length_append, List.length_cons,
        List.length_nil, hLeft hPlain.1, hRight hPlain.2, Expr.tokenCount]
      omega
  | unary op operand hOperand =>
      simp only [ofExpr, Factor.kinds, Sum.kinds, Product.kinds, List.length_append,
        List.length_cons, List.length_nil, hOperand hPlain.2, Expr.tokenCount]
      omega

end Grammar

namespace Expr

variable {e : Expr} {longest : Nat}

/-- Room for the numbers and the names of a written expression. -/
structure WordsFit (longest : Nat) (e : Expr) : Prop where
  constants : ∀ x ∈ e.constants, byteLength (fixed places (magnitude x)) ≤ longest
  root : e.TakesRoot → 4 ≤ longest

/-- The digits of a finite number are a word that means the number they are rounded to. -/
theorem means_number {x : Float} (hFinite : rank x < infinityRank)
    (hLength : byteLength (fixed places (magnitude x)) ≤ longest) :
    Means longest (fixed places (magnitude x))
      (.number (value (fixed places (magnitude x)))) := by
  rw [fixed_magnitude hFinite] at hLength ⊢
  apply Means.number (withPoint_ne_nil _ _) _ hLength
  intro c hChar
  exact isNumeralChar_of_mem_withPoint hChar

/-- With room for them, the words mean the sentence of the expression. -/
theorem forall₂_means (hPlain : e.Plain) (hFit : e.WordsFit longest) :
    List.Forall₂ (Means longest) e.words (Factor.ofExpr e).kinds := by
  induction e with
  | param h => exact hPlain.elim
  | resolved r => exact hPlain.elim
  | number x =>
      have hNumber := means_number hPlain (hFit.constants x List.mem_cons_self)
      rw [words, Factor.ofExpr]
      split
      · exact .cons (.binary .sub) (.cons hNumber .nil)
      · exact .cons hNumber .nil
  | binary op left right hLeft hRight =>
      have hFirst := hLeft hPlain.1
        ⟨fun x hx => hFit.constants x (List.mem_append_left _ hx), fun h => hFit.root (.inl h)⟩
      have hSecond := hRight hPlain.2
        ⟨fun x hx => hFit.constants x (List.mem_append_right _ hx), fun h => hFit.root (.inr h)⟩
      have hRest := List.rel_append hSecond (.cons .closeParen .nil)
      have hAll := List.rel_append hFirst (.cons (.binary op) hRest)
      rw [words, Factor.ofExpr, Factor.kinds, Sum.kinds_ofBinary]
      simpa using List.Forall₂.cons Means.openParen hAll
  | unary op operand hOperand =>
      have hInner := hOperand hPlain.2
        ⟨fun x hx => hFit.constants x hx, fun h => hFit.root (.inr h)⟩
      have hRest := List.rel_append hInner (.cons .closeParen .nil)
      rw [words, Factor.ofExpr, Factor.kinds, Sum.kinds, Product.kinds, Factor.kinds]
      rcases hPlain.1 with rfl | rfl
      · exact .cons .openParen (.cons (.binary .sub) hRest)
      · exact .cons .openParen (.cons (.root (hFit.root (.inl rfl))) hRest)

theorem fixed_mem_words {x : Float} (hMem : x ∈ e.constants) :
    fixed places (magnitude x) ∈ e.words := by
  induction e with
  | param h => cases hMem
  | resolved r => cases hMem
  | number y =>
      obtain rfl : x = y := by simpa [constants] using hMem
      rw [words]
      split <;> simp
  | binary op left right hLeft hRight =>
      rcases List.mem_append.mp hMem with hMem | hMem
      · simp [words, hLeft hMem]
      · simp [words, hRight hMem]
  | unary op operand hOperand => simp [words, hOperand hMem]

theorem rootName_mem_words (hRoot : e.TakesRoot) : Token.rootName ∈ e.words := by
  induction e with
  | param h => cases hRoot
  | resolved r => cases hRoot
  | number x => cases hRoot
  | binary op left right hLeft hRight =>
      rcases hRoot with hRoot | hRoot
      · simp [words, hLeft hRoot]
      · simp [words, hRight hRoot]
  | unary op operand hOperand =>
      rcases hRoot with rfl | hRoot
      · simp [words, UnaryOp.name, Token.rootName]
      · simp [words, hOperand hRoot]

theorem finite_of_mem_constants (hPlain : e.Plain) {x : Float} (hMem : x ∈ e.constants) :
    rank x < infinityRank := by
  induction e with
  | param h => exact hPlain.elim
  | resolved r => exact hPlain.elim
  | number y =>
      obtain rfl : x = y := by simpa [constants] using hMem
      exact hPlain
  | binary op left right hLeft hRight =>
      exact (List.mem_append.mp hMem).elim (hLeft hPlain.1) (hRight hPlain.2)
  | unary op operand hOperand => exact hOperand hPlain.2 hMem

end Expr

theorem exists_means_of_mem {longest : Nat} {words : List (List Char)} {kinds : List TokenKind}
    (hAll : List.Forall₂ (Means longest) words kinds) {word : List Char} (hMem : word ∈ words) :
    ∃ k, Means longest word k := by
  induction hAll with
  | nil => cases hMem
  | cons hMeans _ ih =>
      rcases List.mem_cons.mp hMem with rfl | hMem
      · exact ⟨_, hMeans⟩
      · exact ih hMem

namespace Expr

variable {e : Expr} {longest : Nat}

/-- Words that all have a meaning are not too long. -/
theorem wordsFit_of_means (hPlain : e.Plain) {kinds : List TokenKind}
    (hAll : List.Forall₂ (Means longest) e.words kinds) : e.WordsFit longest := by
  constructor
  · intro x hMem
    have hFinite := finite_of_mem_constants hPlain hMem
    obtain ⟨k, hMeans⟩ := exists_means_of_mem hAll (fixed_mem_words hMem)
    rw [fixed_magnitude hFinite] at hMeans ⊢
    obtain ⟨first, others, hRun⟩ := List.exists_cons_of_ne_nil (withPoint_ne_nil places
      (scaled places (rank x)))
    have hFirst : isNumeralChar first = true :=
      isNumeralChar_of_mem_withPoint (hRun ▸ List.mem_cons_self)
    rw [hRun] at hMeans ⊢
    have hKind : (Lexeme.mk first others 0).kind = .numeral := kind_eq_numeral_iff.mpr hFirst
    exact (Means.length_le (l := ⟨first, others, 0⟩) hMeans).resolve_left (by simp [hKind])
  · intro hRoot
    obtain ⟨k, hMeans⟩ := exists_means_of_mem hAll (rootName_mem_words hRoot)
    exact (Means.length_le (l := ⟨'s', ['q', 'r', 't'], 0⟩) hMeans).resolve_left (by decide)

/-- With room for its words, the written form of a plain expression spells one group of parentheses
around another. -/
theorem spells_print (hPlain : e.Plain) (hFit : e.WordsFit longest) :
    Spells longest (e.write []) (.single (.single (.ofExpr e))) := by
  obtain ⟨lexemes, hCut, hWords⟩ := cutInto_write hPlain (by simp) cutInto_nil 0
  rw [List.append_nil] at hWords
  exact ⟨lexemes, hCut, hWords ▸ forall₂_means hPlain hFit⟩

/-- The written form spells the sentence of its expression, and nothing else. -/
theorem spells_write_iff (hPlain : e.Plain) (s : Sum) :
    Spells longest (e.write []) s ↔
      e.WordsFit longest ∧ s = .single (.single (.ofExpr e)) := by
  constructor
  · intro hSpells
    obtain ⟨lexemes, hCut, hAll⟩ := hSpells
    obtain ⟨written, hWritten, hWords⟩ := cutInto_write hPlain (by simp) cutInto_nil 0
    obtain rfl : lexemes = written := hCut.unique hWritten
    rw [hWords, List.append_nil] at hAll
    have hFit := wordsFit_of_means hPlain hAll
    refine ⟨hFit, Sum.kinds_injective ?_⟩
    exact kinds_unique hAll (forall₂_means hPlain hFit)
  · rintro ⟨hFit, rfl⟩
    exact spells_print hPlain hFit

/-- Numbers that survive being written keep every value of the expression. -/
theorem evalWith_reread (hPlain : e.Plain)
    (hExact : ∀ x ∈ e.constants, value (fixed places (magnitude x)) = magnitude x)
    (v : Valuation Float) : e.reread.evalWith .binary64 v = e.evalWith .binary64 v := by
  induction e with
  | param h => exact hPlain.elim
  | resolved r => exact hPlain.elim
  | number x =>
      have hNumber := hExact x List.mem_cons_self
      rw [reread]
      by_cases hSign : signBit x = true
      · rw [if_pos hSign, hNumber]
        exact neg_magnitude_of_signBit hPlain hSign
      · have hSelf := magnitude_of_signBit_false (Bool.eq_false_iff.mpr hSign)
        rw [hSelf] at hNumber
        rw [if_neg hSign, hNumber]
  | binary op left right hLeft hRight =>
      rw [reread, evalWith, evalWith,
        hLeft hPlain.1 fun x hx => hExact x (List.mem_append_left _ hx),
        hRight hPlain.2 fun x hx => hExact x (List.mem_append_right _ hx)]
  | unary op operand hOperand =>
      rw [reread, evalWith, evalWith, hOperand hPlain.2 hExact]

end Expr

/-- What it takes to read a plain expression back, and what is read then. The limits have to have
room for the tokens, the groups, the waiting operators and the words of the written form, and for
no more than that. Where the written numbers are exact, nothing changes in value. -/
theorem parse_print_eq_ok_iff (limits : Limits) (e : Expr) (hPlain : e.Plain) :
    (∀ t, Expr.parse limits e.print = .ok t ↔
      (e.tokenCount ≤ limits.maxTokens ∧ e.maxDepth - 1 ≤ limits.maxDepth ∧
        1 + e.height ≤ limits.stackCapacity ∧ e.WordsFit limits.maxLiteralLength) ∧
          t = e.reread) ∧
    ((∀ x ∈ e.constants, value (fixed Expr.places (magnitude x)) = magnitude x) →
      ∀ s g, e.reread.eval s g = e.eval s g) := by
  refine ⟨fun t => ?_, fun hExact s g => Expr.evalWith_reread hPlain hExact _⟩
  have hTokens : (Sum.single (.single (.ofExpr e))).kinds.length = e.tokenCount :=
    Factor.length_kinds_ofExpr hPlain
  have hNeed : (Sum.single (.single (.ofExpr e))).need = 1 + e.height :=
    congrArg (1 + ·) (Factor.peak_ofExpr hPlain)
  have hNesting : (Sum.single (.single (.ofExpr e))).nesting = e.maxDepth - 1 :=
    Factor.nesting_ofExpr hPlain
  have hExpr : (Sum.single (.single (.ofExpr e))).expr = e.reread := Factor.expr_ofExpr hPlain
  rw [Expr.parse, Expr.print, String.toList_ofList, ofChars_eq_ok_iff_spells]
  simp only [Expr.spells_write_iff hPlain]
  constructor
  · rintro ⟨s, ⟨hFit, rfl⟩, rfl, hCount, hStack, hDepth⟩
    rw [hTokens] at hCount
    rw [hNeed] at hStack
    rw [hNesting] at hDepth
    exact ⟨⟨hCount, hDepth, hStack, hFit⟩, hExpr⟩
  · rintro ⟨⟨hCount, hDepth, hStack, hFit⟩, rfl⟩
    rw [← hTokens] at hCount
    rw [← hNeed] at hStack
    rw [← hNesting] at hDepth
    exact ⟨_, ⟨hFit, rfl⟩, hExpr, hCount, hStack, hDepth⟩

/-- One less the root of minus zero. The sign of the zero comes back as a negation, and the value
is the same. -/
theorem parse_print_one_minus_root :
    ∃ e : Expr, e = .binary .sub (.number (ofRank false (1023 * leadingWeight)))
        (.unary .sqrt (.number (ofRank true 0))) ∧ e.Plain ∧
      Expr.parse .standard e.print = .ok e.reread ∧
      e.reread = .binary .sub (.number (value ['1', '.', '0', '0', '0']))
        (.unary .sqrt (.unary .neg (.number (value ['0', '.', '0', '0', '0'])))) ∧
      ∀ s g, e.reread.eval s g = e.eval s g := by
  have hPlain : Expr.Plain (.binary .sub (.number (ofRank false (1023 * leadingWeight)))
      (.unary .sqrt (.number (ofRank true 0)))) := by
    refine ⟨?_, .inr rfl, ?_⟩
    · show rank (ofRank false (1023 * leadingWeight)) < infinityRank
      decide +kernel
    · show rank (ofRank true 0) < infinityRank
      decide +kernel
  have hOne : fixed 3 (ofRank false (1023 * leadingWeight)) = ['1', '.', '0', '0', '0'] := by
    decide +kernel
  have hZero : fixed 3 (magnitude (ofRank true 0)) = ['0', '.', '0', '0', '0'] := by
    decide +kernel
  obtain ⟨hParse, hEval⟩ := parse_print_eq_ok_iff .standard _ hPlain
  refine ⟨_, rfl, hPlain, (hParse _).mpr ⟨⟨?_, ?_, ?_, ?_, ?_⟩, rfl⟩, ?_, hEval ?_⟩
  · decide +kernel
  · decide +kernel
  · decide +kernel
  · show ∀ x ∈ [_, _], _
    decide +kernel
  · intro _
    decide
  · rw [Expr.reread, Expr.reread, Expr.reread, Expr.reread, if_neg (by decide +kernel),
      if_pos (by decide +kernel), Expr.places, hOne, hZero]
  · show ∀ x ∈ [_, _], _
    decide +kernel

end Formula
