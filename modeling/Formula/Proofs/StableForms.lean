import Formula.Proofs.LimitPruning
import Formula.Proofs.NumeralValue
import Formula.Proofs.Rereading

/-! Written forms are stable. A written number is read as the double nearest to it, which is at
least as near to it as the double that it was written for; so that double is written the same way.
What comes back from the reader therefore comes back unchanged when it is written and read again. -/
namespace Formula

open Binary64 Decimal Grammar

namespace Binary64

/-- The whole number is at most half a step away from `q`, and half a step only if it is even. -/
structure RoundsTo (q : ℚ) (k : Nat) : Prop where
  near : |q - k| ≤ 1 / 2
  tie : |q - k| = 1 / 2 → k % 2 = 0

namespace RoundsTo

variable {q r : ℚ} {k l : Nat}

/-- Two whole numbers would be next to each other and both even. -/
theorem unique (hFirst : RoundsTo q k) (hSecond : RoundsTo q l) : k = l := by
  wlog hLess : k < l generalizing k l
  · rcases Nat.lt_or_eq_of_le (Nat.not_lt.mp hLess) with hLess | hEqual
    · exact (this hSecond hFirst hLess).symm
    · exact hEqual.symm
  have hStep : (k : ℚ) + 1 ≤ l := by exact_mod_cast hLess
  obtain ⟨_, hBelow⟩ := abs_le.mp hFirst.near
  obtain ⟨hAbove, _⟩ := abs_le.mp hSecond.near
  have hNext : (l : ℚ) = k + 1 := by linarith
  have hUpper : |q - k| = 1 / 2 := by
    rw [abs_of_nonneg (by linarith)]
    linarith
  have hLower : |q - l| = 1 / 2 := by
    rw [abs_of_nonpos (by linarith)]
    linarith
  have hEven := hFirst.tie hUpper
  have hEvens := hSecond.tie hLower
  have hSucc : l = k + 1 := by exact_mod_cast hNext
  omega

/-- A number that is as near is rounded the same way. -/
theorem of_abs_sub_le (hRounds : RoundsTo q k) (hNear : |r - k| ≤ |q - k|) : RoundsTo r k :=
  ⟨hNear.trans hRounds.near, fun hTie => hRounds.tie (le_antisymm hRounds.near (hTie ▸ hNear))⟩

end RoundsTo

/-- Quotients are rounded to the nearest whole number, ties to the even one. -/
theorem roundsTo_roundHalfEven (num : Nat) {den : Nat} (hDen : 0 < den) :
    RoundsTo (num / den) (roundHalfEven num den) := by
  obtain ⟨hAbove, hBelow, hTie⟩ := roundHalfEven_spec num hDen
  obtain ⟨k, hk⟩ : ∃ k, k = roundHalfEven num den := ⟨_, rfl⟩
  have hPos : (0 : ℚ) < den := Nat.cast_pos.mpr hDen
  have hRest : ((num : ℚ) / den - k) * den = num - k * den := by
    rw [sub_mul, div_mul_cancel₀ _ hPos.ne']
  rw [← hk] at hAbove hBelow hTie ⊢
  constructor
  · have hLower : (2 : ℚ) * (k * den) ≤ 2 * num + den := by exact_mod_cast hAbove
    have hUpper : (2 : ℚ) * num ≤ 2 * (k * den) + den := by exact_mod_cast hBelow
    refine abs_le.mpr ⟨le_of_mul_le_mul_right ?_ hPos, le_of_mul_le_mul_right ?_ hPos⟩
    · linarith
    · linarith
  · intro hHalf
    apply hTie
    rcases (abs_eq one_half_pos.le).mp hHalf with hUp | hDown
    · have hEqual : (2 : ℚ) * num = 2 * (k * den) + den := by
        rw [hUp] at hRest
        linarith
      exact .inr (by exact_mod_cast hEqual)
    · have hEqual : (2 : ℚ) * (k * den) = 2 * num + den := by
        rw [hDown] at hRest
        linarith
      exact .inl (by exact_mod_cast hEqual)

/-- Infinity is more than one above the finite doubles. -/
theorem exact_add_one_lt {n : Nat} (hFinite : n < infinityRank) :
    exact n + 1 < exact infinityRank := by
  have hLast : exact (infinityRank - 1) + 1 < exact infinityRank := by
    have hUnits : units (infinityRank - 1) + scale < units infinityRank := by decide +kernel
    have hScale : (0 : ℚ) < scale := Nat.cast_pos.mpr scale_pos
    rw [exact, exact, div_add_one hScale.ne']
    exact div_lt_div_of_pos_right (by exact_mod_cast hUnits) hScale
  have hOrder : exact n ≤ exact (infinityRank - 1) :=
    exact_strictMono.monotone (Nat.le_sub_one_of_lt hFinite)
  linarith

end Binary64

namespace Decimal

variable {places n : Nat}

theorem tenPow_pos (places : Nat) : 0 < tenPow places := Nat.pow_pos (by omega)

/-- The digits of a number are its value in steps of the last place, rounded. -/
theorem roundsTo_scaled (places n : Nat) :
    RoundsTo (exact n * tenPow places) (scaled places n) := by
  have hRounds := roundsTo_roundHalfEven (units n * tenPow places) scale_pos
  rw [Nat.cast_mul, mul_div_right_comm] at hRounds
  exact hRounds

/-- A distance in steps of the places. -/
theorem abs_exact_mul_sub (places m k : Nat) :
    |exact m * tenPow places - k| = |exact m - k / tenPow places| * tenPow places := by
  have hPower : (0 : ℚ) < tenPow places := Nat.cast_pos.mpr (tenPow_pos places)
  rw [← abs_of_pos hPower, ← abs_mul, sub_mul, abs_of_pos hPower, div_mul_cancel₀ _ hPower.ne']

/-- The double that a written number is read as is written like that number again. -/
theorem scaled_nearestRank (hFinite : n < infinityRank) :
    scaled places (nearestRank (scaled places n) (tenPow places)) = scaled places n := by
  have hNearest := isNearest_nearestRank (scaled places n) (tenPow_pos places)
  apply (roundsTo_scaled places _).unique
  apply (roundsTo_scaled places n).of_abs_sub_le
  rw [abs_exact_mul_sub, abs_exact_mul_sub]
  exact mul_le_mul_of_nonneg_right (hNearest.nearest n hFinite.le) (Nat.cast_nonneg _)

/-- The written form of a finite number is read as a finite number. -/
theorem nearestRank_scaled_lt (hFinite : n < infinityRank) :
    nearestRank (scaled places n) (tenPow places) < infinityRank := by
  have hPower : (1 : ℚ) ≤ tenPow places := Nat.one_le_cast.mpr (tenPow_pos places)
  have hNearest := isNearest_nearestRank (scaled places n) (tenPow_pos places)
  refine lt_of_le_of_ne hNearest.isNumber fun hInfinite => ?_
  rw [hInfinite] at hNearest
  have hWritten : |exact n - scaled places n / tenPow places| ≤ 1 / 2 := by
    have hHalf := (roundsTo_scaled places n).near
    rw [abs_exact_mul_sub] at hHalf
    exact (le_mul_of_one_le_right (abs_nonneg _) hPower).trans hHalf
  have hRead := (hNearest.nearest n hFinite.le).trans hWritten
  have hGap := exact_add_one_lt hFinite
  have hAbove := (abs_le.mp hRead).2
  have hBelow := (abs_le.mp hWritten).1
  linarith

/-- What the written form of a finite number is read as: a finite number without a sign, which is
written the same way. -/
theorem value_fixed_magnitude (hPlaces : 0 < places) {x : Float} (hFinite : rank x < infinityRank) :
    let y := value (fixed places (magnitude x))
    signBit y = false ∧ rank y < infinityRank ∧ fixed places y = fixed places (magnitude x) := by
  intro y
  have hValue : y = nearest (scaled places (rank x)) (tenPow places) := by
    rw [← value_withPoint hPlaces, ← fixed_magnitude hFinite]
  have hSign : signBit y = false := hValue ▸ signBit_nearest _ _
  have hRank : rank y = nearestRank (scaled places (rank x)) (tenPow places) :=
    hValue ▸ rank_nearest _ _
  have hRead : rank y < infinityRank := hRank ▸ nearestRank_scaled_lt hFinite
  refine ⟨hSign, hRead, ?_⟩
  rw [fixed_of_signBit_false hRead hSign, hRank, scaled_nearestRank hFinite,
    fixed_magnitude hFinite]

end Decimal

namespace Expr

variable {e : Expr} {limits : Limits}

theorem places_pos : 0 < places := by decide

/-- A number is read back as its magnitude, behind a negation if it has a sign. -/
theorem reread_number (x : Float) :
    (number x).reread =
      let y := number (value (fixed places (magnitude x)))
      if signBit x then .unary .neg y else y := by
  rw [reread]
  by_cases hSign : signBit x = true
  · rw [if_pos hSign, if_pos hSign]
  · rw [if_neg hSign, if_neg hSign, magnitude_of_signBit_false (Bool.eq_false_iff.mpr hSign)]

/-- What is read back is plain again: its numbers are finite, and signs are negations. -/
theorem Plain.reread (hPlain : e.Plain) : e.reread.Plain := by
  induction e with
  | param h => exact hPlain.elim
  | resolved r => exact hPlain.elim
  | number x =>
      obtain ⟨_, hRead, _⟩ := value_fixed_magnitude places_pos hPlain
      rw [reread_number]
      split
      · exact ⟨.inl rfl, hRead⟩
      · exact hRead
  | binary op left right hLeft hRight => exact ⟨hLeft hPlain.1, hRight hPlain.2⟩
  | unary op operand hOperand => exact ⟨hPlain.1, hOperand hPlain.2⟩

/-- What is read back is read back unchanged. -/
theorem reread_reread (hPlain : e.Plain) : e.reread.reread = e.reread := by
  induction e with
  | param h => exact hPlain.elim
  | resolved r => exact hPlain.elim
  | number x =>
      obtain ⟨hSign, _, hForm⟩ := value_fixed_magnitude places_pos hPlain
      have hSelf := reread_number (value (fixed places (magnitude x)))
      rw [hSign, magnitude_of_signBit_false hSign, hForm] at hSelf
      rw [reread_number]
      split
      · exact congrArg (Expr.unary .neg) hSelf
      · exact hSelf
  | binary op left right hLeft hRight =>
      rw [reread, reread, hLeft hPlain.1, hRight hPlain.2]
  | unary op operand hOperand => rw [reread, reread, hOperand hPlain.2]

/-- Only the sign of a number is written in another way when it comes back. -/
theorem write_reread (hPlain : e.Plain) (hSigns : ∀ x ∈ e.constants, signBit x = false)
    (rest : List Char) : e.reread.write rest = e.write rest := by
  induction e generalizing rest with
  | param h => exact hPlain.elim
  | resolved r => exact hPlain.elim
  | number x =>
      have hSign := hSigns x List.mem_cons_self
      obtain ⟨_, _, hForm⟩ := value_fixed_magnitude places_pos hPlain
      rw [magnitude_of_signBit_false hSign] at hForm
      rw [reread, hSign, if_neg Bool.false_ne_true, write, write, hForm]
  | binary op left right hLeft hRight =>
      obtain ⟨hFirst, hSecond⟩ := List.forall_mem_append.mp hSigns
      simp only [reread, write, hLeft hPlain.1 hFirst, hRight hPlain.2 hSecond]
  | unary op operand hOperand => simp only [reread, write, hOperand hPlain.2 hSigns]

/-- Limits that the written form of an expression fits into. -/
def room (e : Expr) : Limits where
  maxTokens := e.tokenCount
  stackCapacity := 1 + e.height
  maxDepth := e.maxDepth - 1
  maxLiteralLength := 4 + (e.constants.map fun x => byteLength (fixed places (magnitude x))).sum

/-- Limits above the room of an expression let its words pass. -/
theorem wordsFit_of_room_le (hRoom : e.room ≤ limits) : e.WordsFit limits.maxLiteralLength := by
  obtain ⟨_, _, _, hLength⟩ := hRoom
  constructor
  · intro x hMem
    have hSum := List.le_sum_of_mem
      (List.mem_map_of_mem (f := fun x => byteLength (fixed places (magnitude x))) hMem)
    exact hSum.trans ((Nat.le_add_left _ 4).trans hLength)
  · exact fun _ => (Nat.le_add_right 4 _).trans hLength

/-- With enough room, the written form of an expression is read with each number as its digits
say. -/
theorem parse_print_of_room_le (hPlain : e.Plain) (hRoom : e.room ≤ limits) :
    Expr.parse limits e.print = .ok e.reread := by
  have hSpells := spells_print hPlain (wordsFit_of_room_le hRoom)
  obtain ⟨hTokens, hStack, hDepth, _⟩ := hRoom
  rw [Expr.parse, print, String.toList_ofList, ofChars_eq_ok_iff_spells]
  refine ⟨_, hSpells, Factor.expr_ofExpr hPlain, ?_, ?_, ?_⟩
  · exact (Factor.length_kinds_ofExpr hPlain).trans_le hTokens
  · exact (congrArg (1 + ·) (Factor.peak_ofExpr hPlain)).trans_le hStack
  · exact (Factor.nesting_ofExpr hPlain).trans_le hDepth

end Expr

/-- The limits do not bind on the text: the answer for it reports none of them. -/
def Limits.Admit (limits : Limits) (text : String) : Prop :=
  ∀ e, Expr.parse limits text = .error e → e.isLimit = false

/-- Limits under which a text is read admit it. -/
theorem Limits.admit_of_ok {limits : Limits} {text : String} {e : Expr}
    (hParse : Expr.parse limits text = .ok e) : limits.Admit text := by
  intro error hError
  rw [hParse] at hError
  cases hError

/-- A written form is refused for nothing but limits that bind. -/
theorem Expr.parse_print_of_admit {e : Expr} (hPlain : e.Plain) {limits : Limits}
    (hAdmit : limits.Admit e.print) : Expr.parse limits e.print = .ok e.reread := by
  obtain ⟨large, hLe, hRoom⟩ := limits.exists_common e.room
  have hParse : Pruned (Expr.parse limits e.print) (Expr.parse large e.print) :=
    (pruned_ofLexemes hLe 0 _).bind fun tokens => Expr.pruned_ofTokens hLe tokens
  rw [← hParse.eq_of_not_isLimit hAdmit]
  exact Expr.parse_print_of_room_le hPlain hRoom

/-- Writing and reading come to rest after one round. Under limits that do not bind, the written
form of a plain expression is read as one expression, and so is the written form of that one; from
some limits on none bind. Without signs in front of its numbers the written form itself stays, for
every number without a sign is read back as a number that is written like it. -/
theorem parse_print_stable (e : Expr) (hPlain : e.Plain) :
    (∃ e' : Expr,
      (∀ limits : Limits, limits.Admit e.print → Expr.parse limits e.print = .ok e') ∧
      (∀ limits : Limits, limits.Admit e'.print → Expr.parse limits e'.print = .ok e') ∧
      (∃ bound : Limits, ∀ limits, bound ≤ limits →
        limits.Admit e.print ∧ limits.Admit e'.print) ∧
      ((∀ x ∈ e.constants, signBit x = false) → e'.print = e.print)) ∧
    ∀ x : Float, rank x < infinityRank → signBit x = false →
      fixed Expr.places (value (fixed Expr.places x)) = fixed Expr.places x := by
  refine ⟨⟨e.reread, fun limits => Expr.parse_print_of_admit hPlain, ?_, ?_, ?_⟩, ?_⟩
  · intro limits hAdmit
    rw [Expr.parse_print_of_admit hPlain.reread hAdmit, Expr.reread_reread hPlain]
  · obtain ⟨bound, hFirst, hSecond⟩ := e.room.exists_common e.reread.room
    refine ⟨bound, fun limits hLe => ⟨?_, ?_⟩⟩
    · exact Limits.admit_of_ok (Expr.parse_print_of_room_le hPlain (hFirst.trans hLe))
    · exact Limits.admit_of_ok (Expr.parse_print_of_room_le hPlain.reread (hSecond.trans hLe))
  · exact fun hSigns => congrArg String.ofList (Expr.write_reread hPlain hSigns [])
  · intro x hFinite hSign
    obtain ⟨_, _, hForm⟩ := value_fixed_magnitude Expr.places_pos hFinite
    rwa [magnitude_of_signBit_false hSign] at hForm

/-- The root of a sixteenth, which lies halfway between two numbers of three places. The even one
is written, and what is read differs from a sixteenth and is written the same way. -/
theorem parse_print_root_of_sixteenth :
    ∃ e e' : Expr, e = .unary .sqrt (.number (ofRank false (1019 * leadingWeight))) ∧ e.Plain ∧
      e' = .unary .sqrt (.number (value ['0', '.', '0', '6', '2'])) ∧
      value ['0', '.', '0', '6', '2'] ≠ ofRank false (1019 * leadingWeight) ∧
      e.print = "(sqrt 0.062)" ∧ e'.print = "(sqrt 0.062)" ∧
      Expr.parse .standard e.print = .ok e' ∧ Expr.parse .standard e'.print = .ok e' := by
  let e : Expr := .unary .sqrt (.number (ofRank false (1019 * leadingWeight)))
  have hPlain : e.Plain := by
    refine ⟨.inr rfl, ?_⟩
    show rank (ofRank false (1019 * leadingWeight)) < infinityRank
    decide +kernel
  have hSigns : ∀ x ∈ e.constants, signBit x = false := by
    show ∀ x ∈ [_], _
    decide +kernel
  have hText : e.print = "(sqrt 0.062)" := by decide +kernel
  have hTokens : Token.ofChars .standard "(sqrt 0.062)".toList =
      .ok [⟨.openParen, ⟨0, 1⟩⟩, ⟨.operator (.prefixed .sqrt), ⟨1, 5⟩⟩,
        ⟨.number (value ['0', '.', '0', '6', '2']), ⟨6, 11⟩⟩, ⟨.closeParen, ⟨11, 12⟩⟩] := by
    rw [String.toList_ofList]
    decide +kernel
  have hParse : Expr.parse .standard e.print =
      .ok (.unary .sqrt (.number (value ['0', '.', '0', '6', '2']))) := by
    rw [hText, Expr.parse, Expr.ofChars, hTokens]
    rfl
  have hAdmit : Limits.standard.Admit e.print := Limits.admit_of_ok hParse
  obtain ⟨⟨e', hRead, hStay, -, hForm⟩, -⟩ := parse_print_stable e hPlain
  have hSame : e'.print = e.print := hForm hSigns
  have hFirst := hRead .standard hAdmit
  have hSecond := hStay .standard (hSame ▸ hAdmit)
  refine ⟨e, e', rfl, hPlain, ?_, ?_, hText, hSame.trans hText, hFirst, hSecond⟩
  · exact Except.ok.inj (hFirst.symm.trans hParse)
  · decide +kernel

end Formula
