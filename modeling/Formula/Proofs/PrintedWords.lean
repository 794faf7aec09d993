import Formula.Expr.Printing
import Formula.Proofs.Cutting
import Formula.Proofs.FiniteDouble

/-! Written expressions fall into the words that they are made of. A number is followed by a blank
or a parenthesis, so longest match does not run into what stands behind it. -/
namespace Formula

open Binary64 Decimal

namespace Decimal

theorem isDigit_of_mem_padded {width n : Nat} {c : Char} (hMem : c ∈ padded width n) :
    c.isDigit = true := by
  rw [padded, List.leftpad, List.mem_append] at hMem
  rcases hMem with hZero | hDigit
  · rw [List.eq_of_mem_replicate hZero]
    rfl
  · exact Nat.isDigit_of_mem_toDigits (by decide) (by decide) hDigit

theorem isNumeralChar_of_mem_withPoint {places k : Nat} {c : Char}
    (hMem : c ∈ withPoint places k) : isNumeralChar c = true := by
  rw [withPoint, List.mem_append, List.mem_cons] at hMem
  rcases hMem with hWhole | rfl | hFraction
  · rw [isNumeralChar, Nat.isDigit_of_mem_toDigits (by decide) (by decide) hWhole]
    rfl
  · rfl
  · rw [isNumeralChar, isDigit_of_mem_padded hFraction]
    rfl

theorem withPoint_ne_nil (places k : Nat) : withPoint places k ≠ [] := by
  simp [withPoint]

/-- A finite number without a sign is written with its point and nothing in front. -/
theorem fixed_of_signBit_false {places : Nat} {x : Float} (hFinite : rank x < infinityRank)
    (hSign : signBit x = false) : fixed places x = withPoint places (scaled places (rank x)) := by
  have hNumber : ¬ infinityRank < rank x := Nat.not_lt.mpr (Nat.le_of_lt hFinite)
  simp only [fixed, signed, if_neg hNumber, if_neg (Nat.ne_of_lt hFinite), hSign]
  rfl

theorem fixed_magnitude {places : Nat} {x : Float} (hFinite : rank x < infinityRank) :
    fixed places (magnitude x) = withPoint places (scaled places (rank x)) := by
  have hRank := rank_magnitude hFinite
  rw [fixed_of_signBit_false (hRank.symm ▸ hFinite) (signBit_magnitude hFinite), hRank]

/-- A negative number is written as a sign and its magnitude. -/
theorem fixed_of_signBit {places : Nat} {x : Float} (hFinite : rank x < infinityRank)
    (hSign : signBit x = true) : fixed places x = '-' :: fixed places (magnitude x) := by
  have hNumber : ¬ infinityRank < rank x := Nat.not_lt.mpr (Nat.le_of_lt hFinite)
  rw [fixed_magnitude hFinite]
  simp only [fixed, signed, if_neg hNumber, if_neg (Nat.ne_of_lt hFinite), hSign]
  rfl

end Decimal

section Cutting

/-- The text is cut into the words, wherever it stands. -/
def CutInto (text : List Char) (words : List (List Char)) : Prop :=
  ∀ position, ∃ lexemes, Cut position text lexemes ∧ lexemes.map (·.chars) = words

theorem cutInto_nil : CutInto [] [] := fun position => ⟨[], .nil position, rfl⟩

variable {text : List Char} {words : List (List Char)}

/-- A blank is part of no word. -/
theorem CutInto.cons {c : Char} (hBlank : isBlank c = true) (hText : CutInto text words) :
    CutInto (c :: text) words := by
  intro position
  obtain ⟨lexemes, hCut, hWords⟩ := hText (position + c.utf8Size)
  exact ⟨lexemes, .blank hBlank hCut, hWords⟩

/-- A blank in front of a text is no part of a word. -/
theorem CutInto.blank (hText : CutInto text words) : CutInto (' ' :: text) words :=
  hText.cons rfl

/-- A word in front of a text is cut off when the text does not go on with it. -/
theorem CutInto.word {first : Char} {others : List Char} (hFirst : isBlank first = false)
    (hOthers : ∀ c ∈ others, (LexemeKind.ofFirst first).goesOnWith c = true)
    (hEnd : ∀ c ∈ text.head?, (LexemeKind.ofFirst first).goesOnWith c = false)
    (hText : CutInto text words) :
    CutInto (first :: (others ++ text)) ((first :: others) :: words) := by
  intro position
  obtain ⟨lexemes, hCut, hWords⟩ := hText (position + (Lexeme.mk first others position).length)
  exact ⟨⟨first, others, position⟩ :: lexemes,
    .lexeme ⟨first, others, position⟩ hFirst hOthers hEnd hCut, congrArg _ hWords⟩

/-- A character that stands by itself is a word before anything. -/
theorem CutInto.single {c : Char} (hBlank : isBlank c = false)
    (hKind : LexemeKind.ofFirst c = .single) (hText : CutInto text words) :
    CutInto (c :: text) ([c] :: words) := by
  have hEnd : ∀ d ∈ text.head?, (LexemeKind.ofFirst c).goesOnWith d = false := by
    rw [hKind]
    intro d _
    rfl
  exact CutInto.word hBlank (List.forall_mem_nil _) hEnd hText

theorem isBlank_of_isNumeralChar {c : Char} (hChar : isNumeralChar c = true) :
    isBlank c = false := by
  by_cases hBlank : isBlank c = true
  · simp only [isBlank, Bool.or_eq_true, beq_iff_eq] at hBlank
    rcases hBlank with ((((rfl | rfl) | rfl) | rfl) | rfl) | rfl <;> cases hChar
  · simpa using hBlank

/-- A numeral is cut off in front of a text that starts with neither a digit nor a point. -/
theorem CutInto.numeral {run : List Char} (hRun : run ≠ [])
    (hChars : ∀ c ∈ run, isNumeralChar c = true)
    (hEnd : ∀ c ∈ text.head?, isNumeralChar c = false) (hText : CutInto text words) :
    CutInto (run ++ text) (run :: words) := by
  obtain ⟨first, others, rfl⟩ := List.exists_cons_of_ne_nil hRun
  obtain ⟨hFirst, hOthers⟩ := List.forall_mem_cons.mp hChars
  have hKind : LexemeKind.ofFirst first = .numeral := if_pos hFirst
  apply CutInto.word (isBlank_of_isNumeralChar hFirst)
  · rw [hKind]
    exact hOthers
  · rw [hKind]
    exact hEnd
  · exact hText

end Cutting

namespace Expr

/-- Finite numbers under the operators that a text can have. -/
def Plain : Expr → Prop
  | .param _ | .resolved _ => False
  | .number x => rank x < infinityRank
  | .binary _ left right => left.Plain ∧ right.Plain
  | .unary op operand => (op = .neg ∨ op = .sqrt) ∧ operand.Plain

/-- The words that an expression is written with. -/
def words : Expr → List (List Char)
  | .param _ | .resolved _ => []
  | .number x =>
    if signBit x then [['-'], fixed places (magnitude x)] else [fixed places (magnitude x)]
  | .binary op left right => ['('] :: left.words ++ [op.symbol] :: right.words ++ [[')']]
  | .unary op operand => ['('] :: op.name :: operand.words ++ [[')']]

/-- The symbol of a binary operator is a word by itself, whatever follows. -/
theorem cutInto_symbol (op : BinaryOp) {text : List Char} {words : List (List Char)}
    (hText : CutInto text words) : CutInto (op.symbol :: text) ([op.symbol] :: words) := by
  cases op <;> exact hText.single rfl rfl

/-- The minus sign and the name of the root are single words in front of a blank. -/
theorem cutInto_name {op : UnaryOp} (hOp : op = .neg ∨ op = .sqrt) {text : List Char}
    {words : List (List Char)} (hText : CutInto text words) :
    CutInto (op.name ++ ' ' :: text) (op.name :: words) := by
  rcases hOp with rfl | rfl
  · exact hText.blank.single rfl rfl
  · exact hText.blank.word rfl (List.all_eq_true.mp rfl) (ends_cons rfl)

/-- What follows a written expression may be any text that does not go on with a number. -/
theorem cutInto_write {e : Expr} (hPlain : e.Plain) {rest : List Char}
    {words : List (List Char)} (hEnd : ∀ c ∈ rest.head?, isNumeralChar c = false)
    (hRest : CutInto rest words) : CutInto (e.write rest) (e.words ++ words) := by
  induction e generalizing rest words with
  | param h => exact hPlain.elim
  | resolved r => exact hPlain.elim
  | number x =>
      have hNumber : CutInto (fixed places (magnitude x) ++ rest)
          (fixed places (magnitude x) :: words) := by
        rw [fixed_magnitude hPlain]
        apply CutInto.numeral (withPoint_ne_nil _ _) _ hEnd hRest
        intro c hChar
        exact isNumeralChar_of_mem_withPoint hChar
      rw [write, Expr.words]
      by_cases hSign : signBit x = true
      · rw [if_pos hSign, fixed_of_signBit hPlain hSign]
        exact hNumber.single rfl rfl
      · rw [if_neg hSign]
        rw [magnitude_of_signBit_false (Bool.eq_false_iff.mpr hSign)] at hNumber ⊢
        exact hNumber
  | binary op left right hLeft hRight =>
      have hClose : CutInto (')' :: rest) ([')'] :: words) :=
        hRest.single rfl rfl
      have hSecond := hRight hPlain.2 (ends_cons rfl) hClose
      have hFirst := hLeft hPlain.1 (ends_cons rfl) (cutInto_symbol op hSecond.blank).blank
      have hOpen := hFirst.single (c := '(') rfl rfl
      simpa [write, Expr.words] using hOpen
  | unary op operand hOperand =>
      have hClose : CutInto (')' :: rest) ([')'] :: words) :=
        hRest.single rfl rfl
      have hInner := hOperand hPlain.2 (ends_cons rfl) hClose
      have hOpen := (cutInto_name hPlain.1 hInner).single (c := '(') rfl rfl
      simpa [write, Expr.words] using hOpen

end Expr

end Formula
