import Formula.Proofs.ReaderImage
import Formula.Proofs.StableForms

/-! Whether the reader takes the written form of what it has read. The written form has a group of
parentheses around every operator and three places behind every point, so it can be longer than the
text was, nest deeper and have longer numbers. Nothing but these limits is in the way: numbers that
are short enough to be read are finite, and full stacks are no matter. -/
namespace Formula

open Binary64 Decimal Grammar

namespace Decimal

theorem toNat_sub_zero_le {c : Char} (hDigit : c.isDigit = true) : c.toNat - '0'.toNat ≤ 9 :=
  Nat.sub_le_sub_right (Char.isDigit_iff_toNat.mp hDigit).2 '0'.toNat

/-- Digits that are read behind a number do not reach the next number with zeros behind it. -/
theorem ofDigitChars_lt {digits : List Char} (hDigits : ∀ c ∈ digits, c.isDigit = true)
    (init : Nat) : Nat.ofDigitChars 10 digits init < (init + 1) * 10 ^ digits.length := by
  induction digits generalizing init with
  | nil => simp
  | cons c digits ih =>
      obtain ⟨hFirst, hOthers⟩ := List.forall_mem_cons.mp hDigits
      have hDigit := toNat_sub_zero_le hFirst
      calc
        Nat.ofDigitChars 10 (c :: digits) init
            = Nat.ofDigitChars 10 digits (10 * init + (c.toNat - '0'.toNat)) :=
          Nat.ofDigitChars_cons
        _ < (10 * init + (c.toNat - '0'.toNat) + 1) * 10 ^ digits.length := ih hOthers _
        _ ≤ (10 * (init + 1)) * 10 ^ digits.length := Nat.mul_le_mul_right _ (by omega)
        _ = (init + 1) * 10 ^ (c :: digits).length := by
          rw [List.length_cons, Nat.pow_succ]
          ring

/-- A run stands for less than the power of ten that has a digit more. -/
theorem StandsFor.lt_tenPow {run : List Char} {q : ℚ} (hRun : StandsFor run q) :
    q < 10 ^ run.length := by
  cases hRun with
  | whole hDigits =>
      have hValue := ofDigitChars_lt hDigits 0
      rw [Nat.zero_add, Nat.one_mul] at hValue
      exact_mod_cast hValue
  | @point digits fraction rest hDigits hFraction hRest =>
      have hWhole := ofDigitChars_lt hDigits 0
      have hPart := ofDigitChars_lt hFraction 0
      rw [Nat.zero_add, Nat.one_mul] at hWhole hPart
      have hPower : (0 : ℚ) < 10 ^ fraction.length := by positivity
      have hBelow : (Nat.ofDigitChars 10 fraction 0 : ℚ) / 10 ^ fraction.length < 1 := by
        rw [div_lt_one hPower]
        exact_mod_cast hPart
      have hNext : (Nat.ofDigitChars 10 digits 0 : ℚ) + 1 ≤ 10 ^ digits.length := by
        exact_mod_cast hWhole
      have hLonger : (10 : ℚ) ^ digits.length ≤ 10 ^ (digits ++ '.' :: (fraction ++ rest)).length :=
        pow_le_pow_right₀ (by norm_num) (by simp)
      linarith

end Decimal

/-- A text has at least as many bytes as characters. -/
theorem length_le_byteLength (text : List Char) : text.length ≤ byteLength text := by
  induction text with
  | nil => exact Nat.le_refl 0
  | cons c text ih =>
      have hChar := c.utf8Size_pos
      rw [List.length_cons, byteLength]
      omega

/-- What is nearer to zero than to infinity is not read as infinity. -/
theorem Binary64.IsNearest.finite {q : ℚ} {n : Nat} (hNearest : IsNearest q n)
    (hSmall : 2 * q < exact infinityRank) : n < infinityRank := by
  refine lt_of_le_of_ne hNearest.isNumber fun hInfinite => ?_
  have hZero : exact 0 = 0 := by rw [exact, show units 0 = 0 from rfl, Nat.cast_zero, zero_div]
  have hPos : 0 < exact infinityRank := hZero ▸ exact_strictMono (by decide)
  have hNear : |q| < exact infinityRank - q := abs_lt.mpr ⟨by linarith, by linarith⟩
  have hFar := hNearest.nearest 0 (Nat.zero_le _)
  rw [hInfinite, hZero, zero_sub, abs_neg] at hFar
  exact absurd (hNear.trans_le (le_abs_self _)) (not_lt.mpr hFar)

/-- Numbers of few digits are finite. -/
theorem Means.finite {longest : Nat} (hShort : 2 * (10 : ℚ) ^ longest < exact infinityRank)
    {word : List Char} {x : Float} (hMeans : Means longest word (.number x)) :
    rank x < infinityRank := by
  cases hMeans with
  | number hRun hChars hLength =>
      obtain ⟨q, hStands⟩ := exists_standsFor hChars
      have hLess := hStands.lt_tenPow
      have hDigits : (10 : ℚ) ^ word.length ≤ 10 ^ longest :=
        pow_le_pow_right₀ (by norm_num) ((length_le_byteLength word).trans hLength)
      exact hStands.value_isNearest.2.finite (by linarith)

/-- With the standard limits, no number is long enough to be read as infinity. -/
theorem two_mul_tenPow_standard :
    2 * (10 : ℚ) ^ Limits.standard.maxLiteralLength < exact infinityRank := by
  have hUnits : 2 * 10 ^ Limits.standard.maxLiteralLength * scale < units infinityRank := by
    decide +kernel
  rw [exact, lt_div_iff₀ (Nat.cast_pos.mpr scale_pos)]
  exact_mod_cast hUnits

namespace Grammar

mutual

/-- The numbers of a sentence are those of what it stands for. -/
theorem Sum.number_mem_kinds (s : Sum) {x : Float} (hMem : x ∈ s.expr.constants) :
    .number x ∈ s.kinds := by
  cases s with
  | single p => exact p.number_mem_kinds hMem
  | join s op p =>
      rcases List.mem_append.mp hMem with hLeft | hRight
      · exact List.mem_append_left _ (s.number_mem_kinds hLeft)
      · exact List.mem_append_right _ (List.mem_cons_of_mem _ (p.number_mem_kinds hRight))

theorem Product.number_mem_kinds (p : Product) {x : Float} (hMem : x ∈ p.expr.constants) :
    .number x ∈ p.kinds := by
  cases p with
  | single f => exact f.number_mem_kinds hMem
  | join p op f =>
      rcases List.mem_append.mp hMem with hLeft | hRight
      · exact List.mem_append_left _ (p.number_mem_kinds hLeft)
      · exact List.mem_append_right _ (List.mem_cons_of_mem _ (f.number_mem_kinds hRight))

theorem Factor.number_mem_kinds (f : Factor) {x : Float} (hMem : x ∈ f.expr.constants) :
    .number x ∈ f.kinds := by
  cases f with
  | number y =>
      cases List.mem_singleton.mp hMem
      exact List.mem_singleton_self _
  | group s =>
      exact List.mem_cons_of_mem _ (List.mem_append_left _ (s.number_mem_kinds hMem))
  | prefixed op f => exact List.mem_cons_of_mem _ (f.number_mem_kinds hMem)

end

end Grammar

namespace Expr

variable {e : Expr} {limits : Limits}

theorem Readable.plain (hReadable : e.Readable)
    (hFinite : ∀ x ∈ e.constants, rank x < infinityRank) : e.Plain := by
  induction e with
  | param h => exact hReadable.elim
  | resolved r => exact hReadable.elim
  | number x => exact hFinite x List.mem_cons_self
  | binary op left right hLeft hRight =>
      obtain ⟨hFirst, hSecond⟩ := List.forall_mem_append.mp hFinite
      exact ⟨hLeft hReadable.1 hFirst, hRight hReadable.2 hSecond⟩
  | unary op operand hOperand => exact ⟨hReadable.1, hOperand hReadable.2 hFinite⟩

/-- What is read from numbers of few digits can be written, with finite numbers only. -/
theorem plain_of_parse (hShort : 2 * (10 : ℚ) ^ limits.maxLiteralLength < exact infinityRank)
    {text : String} (hParse : Expr.parse limits text = .ok e) : e.Plain := by
  apply (readable_of_parse hParse).plain
  rw [Expr.parse, ofChars_eq_ok_iff_spells] at hParse
  obtain ⟨s, ⟨lexemes, -, hWords⟩, rfl, -⟩ := hParse
  intro x hMem
  obtain ⟨word, hMeans⟩ := exists_means_of_mem_kinds hWords (s.number_mem_kinds hMem)
  exact hMeans.finite hShort

/-- With stacks for as many entries as there may be tokens, it is the other three limits that
decide whether a written form is read. -/
theorem exists_parse_print_iff (hRoom : limits.maxTokens ≤ limits.stackCapacity)
    (hPlain : e.Plain) :
    (∃ t, Expr.parse limits e.print = .ok t) ↔
      e.tokenCount ≤ limits.maxTokens ∧ e.maxDepth - 1 ≤ limits.maxDepth ∧
        e.WordsFit limits.maxLiteralLength := by
  have hTokens : (Sum.single (.single (.ofExpr e))).kinds.length = e.tokenCount :=
    Factor.length_kinds_ofExpr hPlain
  have hNesting : (Sum.single (.single (.ofExpr e))).nesting = e.maxDepth - 1 :=
    Factor.nesting_ofExpr hPlain
  rw [← hTokens, ← hNesting, Expr.parse, print, String.toList_ofList]
  simp only [ofChars_eq_ok_iff_spells, spells_write_iff hPlain]
  constructor
  · rintro ⟨t, s, ⟨hFit, rfl⟩, -, hCount, -, hDepth⟩
    exact ⟨hCount, hDepth, hFit⟩
  · rintro ⟨hCount, hDepth, hFit⟩
    have hNeed := (Sum.single (.single (.ofExpr e))).need_le_length
    exact ⟨_, _, ⟨hFit, rfl⟩, rfl, hCount, (hNeed.trans hCount).trans hRoom, hDepth⟩

/-- A written form that has room for its tokens never fills a stack. -/
theorem parse_print_ne_stackFull (hRoom : limits.maxTokens ≤ limits.stackCapacity)
    (hPlain : e.Plain) (stack : StackKind) :
    Expr.parse limits e.print ≠ .error (.stackFull stack) := by
  have hSpells := spells_print hPlain (wordsFit_of_room_le (le_refl e.room))
  rw [Expr.parse, print, String.toList_ofList]
  exact hSpells.ne_stackFull hRoom stack

/-- Only a limit can refuse the written form of a plain expression. -/
theorem isLimit_of_parse_print (hPlain : e.Plain) {error : ParseError}
    (hError : Expr.parse limits e.print = .error error) : error.isLimit = true := by
  by_contra hOther
  have hAdmit : limits.Admit e.print := by
    intro other hSame
    cases hError.symm.trans hSame
    exact Bool.eq_false_iff.mpr hOther
  have hRead := parse_print_of_admit hPlain hAdmit
  cases hError.symm.trans hRead

/-- What was read has no signs in front of its numbers, and the name of the root is short. -/
theorem Readable.wordsFit_iff {longest : Nat} (hRoot : 4 ≤ longest) (hReadable : e.Readable) :
    e.WordsFit longest ↔ ∀ x ∈ e.constants, byteLength (fixed places x) ≤ longest := by
  have hSelf : ∀ x ∈ e.constants, magnitude x = x := fun x hMem =>
    magnitude_of_signBit_false (hReadable.of_mem_constants hMem).1
  constructor
  · intro hFit x hMem
    rw [← hSelf x hMem]
    exact hFit.constants x hMem
  · intro hLengths
    refine ⟨fun x hMem => ?_, fun _ => hRoot⟩
    rw [hSelf x hMem]
    exact hLengths x hMem

/-- How the reader refuses the written form of what it reads a text as, if it does. -/
def refusal? (limits : Limits) (text : List Char) : Option ParseError :=
  match ofChars limits text with
  | .error _ => none
  | .ok e =>
    match ofChars limits (e.write []) with
    | .error error => some error
    | .ok _ => none

/-- What the check finds is such a text: it is read, and its written form is refused. -/
theorem exists_refused {text : List Char} {error : ParseError}
    (hRefusal : refusal? limits text = some error) :
    ∃ e, Expr.parse limits (String.ofList text) = .ok e ∧
      Expr.parse limits e.print = .error error := by
  simp only [Expr.parse, print, String.toList_ofList]
  rw [refusal?] at hRefusal
  split at hRefusal
  · cases hRefusal
  · rename_i e hRead
    split at hRefusal
    · rename_i hPrinted
      cases hRefusal
      exact ⟨e, hRead, hPrinted⟩
    · cases hRefusal

end Expr

/-- Which texts the reader takes whose written form it takes as well. The written form is refused
if it has too many tokens or groups within each other, or if some number of it is too long, and for
nothing else: neither for its order of words nor for full stacks. What comes back is the expression
with its numbers as they were written, and it comes back from some limits on. -/
theorem parse_print_of_parse (text : String) (e : Expr)
    (hParse : Expr.parse .standard text = .ok e) :
    ((∃ t, Expr.parse .standard e.print = .ok t) ↔
      e.tokenCount ≤ Limits.standard.maxTokens ∧ e.maxDepth ≤ Limits.standard.maxDepth + 1 ∧
        ∀ x ∈ e.constants, byteLength (fixed Expr.places x) ≤ Limits.standard.maxLiteralLength) ∧
    (∀ t, Expr.parse .standard e.print = .ok t → t = e.reread) ∧
    (∀ error, Expr.parse .standard e.print = .error error →
      error.isLimit = true ∧ ∀ stack, error ≠ .stackFull stack) ∧
    ∃ bound : Limits, ∀ limits, bound ≤ limits → Expr.parse limits e.print = .ok e.reread := by
  have hPlain : e.Plain := Expr.plain_of_parse two_mul_tenPow_standard hParse
  have hRoom : Limits.standard.maxTokens ≤ Limits.standard.stackCapacity := Nat.le_refl 1024
  refine ⟨?_, fun t hRead => ?_, fun error hError => ⟨?_, ?_⟩, e.room, fun limits hLe => ?_⟩
  · rw [Expr.exists_parse_print_iff hRoom hPlain,
      (readable_of_parse hParse).wordsFit_iff (by decide), Nat.sub_le_iff_le_add]
  · have hSame := Expr.parse_print_of_admit hPlain (Limits.admit_of_ok hRead)
    exact Except.ok.inj (hRead.symm.trans hSame)
  · exact Expr.isLimit_of_parse_print hPlain hError
  · rintro stack rfl
    exact Expr.parse_print_ne_stackFull hRoom hPlain stack hError
  · exact Expr.parse_print_of_room_le hPlain hLe

/-- A negated sum, whose written form has a group for the sign and places for both numbers; and a
number of twenty-seven digits, whose written form is read back under wider limits only. -/
theorem parse_print_negated_sum :
    (∃ e : Expr, e = .unary .neg (.binary .add (.number (value ['1', '.', '5']))
        (.number (value ['2']))) ∧
      Expr.parse .standard "-(1.5+2)" = .ok e ∧ e.print = "(- (1.500 + 2.000))" ∧
      ∃ t, Expr.parse .standard e.print = .ok t ∧ t = e.reread) ∧
    ∃ e, Expr.parse .standard (String.ofList ('1' :: List.replicate 26 '0')) = .ok e ∧
      (∃ error, Expr.parse .standard e.print = .error error ∧ error.isLimit = true) ∧
      ∃ limits, Expr.parse limits e.print = .ok e.reread := by
  constructor
  · let e : Expr :=
      .unary .neg (.binary .add (.number (value ['1', '.', '5'])) (.number (value ['2'])))
    have hTokens : Token.ofChars .standard "-(1.5+2)".toList =
        .ok [⟨.operator (.binary .sub), ⟨0, 1⟩⟩, ⟨.openParen, ⟨1, 2⟩⟩,
          ⟨.number (value ['1', '.', '5']), ⟨2, 5⟩⟩, ⟨.operator (.binary .add), ⟨5, 6⟩⟩,
          ⟨.number (value ['2']), ⟨6, 7⟩⟩, ⟨.closeParen, ⟨7, 8⟩⟩] := by
      rw [String.toList_ofList]
      decide +kernel
    have hParse : Expr.parse .standard "-(1.5+2)" = .ok e := by
      rw [Expr.parse, Expr.ofChars, hTokens]
      rfl
    have hLengths : ∀ x ∈ e.constants,
        byteLength (fixed Expr.places x) ≤ Limits.standard.maxLiteralLength := by
      show ∀ x ∈ [_, _], _
      decide +kernel
    obtain ⟨hTaken, hRead, -, -⟩ := parse_print_of_parse "-(1.5+2)" e hParse
    obtain ⟨t, hPrinted⟩ := hTaken.mpr ⟨by decide +kernel, by decide, hLengths⟩
    exact ⟨e, rfl, hParse, by decide +kernel, t, hPrinted, hRead t hPrinted⟩
  · have hRefusal : Expr.refusal? .standard ('1' :: List.replicate 26 '0') =
        some (.literalTooLong 30 ⟨0, 31⟩) := by decide +kernel
    obtain ⟨e, hParse, hError⟩ := Expr.exists_refused hRefusal
    obtain ⟨-, -, hLimit, bound, hBound⟩ := parse_print_of_parse _ e hParse
    exact ⟨e, hParse, ⟨_, hError, (hLimit _ hError).1⟩, bound, hBound bound (le_refl bound)⟩

/-- Three texts that the reader takes and whose written forms it refuses: a number of twenty-seven
digits, which gets a point and three places more; a number behind 257 signs, each of which gets a
group; and a sum of two numbers behind 170 signs each, which has one token too many with its 341
groups. -/
theorem parse_print_refused :
    (∃ e, Expr.parse .standard (String.ofList ('1' :: List.replicate 26 '0')) = .ok e ∧
      Expr.parse .standard e.print = .error (.literalTooLong 30 ⟨0, 31⟩)) ∧
    (∃ e, Expr.parse .standard (String.ofList (List.replicate 257 '-' ++ ['1'])) = .ok e ∧
      Expr.parse .standard e.print = .error (.tooDeep 256 ⟨768, 769⟩)) ∧
    ∃ e, Expr.parse .standard (String.ofList
        (List.replicate 170 '-' ++ '1' :: '+' :: (List.replicate 170 '-' ++ ['1']))) = .ok e ∧
      Expr.parse .standard e.print = .error (.tooLong 1024) :=
  ⟨Expr.exists_refused (by decide +kernel), Expr.exists_refused (by decide +kernel),
    Expr.exists_refused (by decide +kernel)⟩

end Formula
