import Mathlib
import Formula.Decimal.Layout
import Formula.Proofs.NumeralValue

/-! Shortest decimals read back. Whichever decimal grid a double is found on, the decimal lies
between the midpoints to the neighbours of the double; so the digits that are written stand for a
number that the double is the nearest one to. -/
namespace Formula.Decimal

open Binary64

/-- The number that a decimal is. -/
def Scientific.number (d : Scientific) : ℚ := d.digits * 10 ^ d.exponent

namespace Step

theorem up_pos (e : Int) : 0 < (ofExponent e).up := Nat.pow_pos (by omega)

/-- A power of ten as a quotient of two with natural exponents. -/
theorem ten_zpow_mul (e : Int) : (10 : ℚ) ^ e * (10 : ℚ) ^ (-e).toNat = (10 : ℚ) ^ e.toNat := by
  rw [← zpow_natCast, ← zpow_natCast, ← zpow_add₀ (by norm_num)]
  congr 1
  omega

/-- Twice the midpoint of two ranks, cleared of the scale and of the decimal step. -/
theorem midpoint_mul (e : Int) (m n : Nat) :
    (exact m + exact n) * (scale * (ofExponent e).up) =
      (((units m + units n) * (ofExponent e).up : Nat) : ℚ) := by
  have hScale : (scale : ℚ) ≠ 0 := Nat.cast_ne_zero.mpr scale_pos.ne'
  rw [exact, exact]
  push_cast
  field_simp

/-- Twice a decimal, cleared of the same factors, so that the two compare as whole numbers. -/
theorem number_mul (e : Int) (c : Nat) :
    2 * (c * (10 : ℚ) ^ e) * (scale * (ofExponent e).up) =
      ((c * (ofExponent e).down : Nat) : ℚ) := by
  have hPower := ten_zpow_mul e
  simp only [ofExponent, tenPow_eq]
  push_cast
  rw [← hPower]
  ring

/-- What reads back lies between the midpoints, and on one of them only if the rank is even. -/
theorem le_of_readsBack {s : Step} {n c : Nat} (hReads : s.readsBack n c = true) :
    (units (n - 1) + units n) * s.up ≤ c * s.down ∧
      c * s.down ≤ (units n + units (n + 1)) * s.up ∧
        ((units (n - 1) + units n) * s.up = c * s.down ∨
          c * s.down = (units n + units (n + 1)) * s.up → n % 2 = 0) := by
  rw [readsBack] at hReads
  by_cases hEven : n % 2 = 0
  · rw [if_pos hEven, Bool.and_eq_true, decide_eq_true_eq, decide_eq_true_eq] at hReads
    exact ⟨hReads.1, hReads.2, fun _ => hEven⟩
  · rw [if_neg hEven, Bool.and_eq_true, decide_eq_true_eq, decide_eq_true_eq] at hReads
    refine ⟨Nat.le_of_lt hReads.1, Nat.le_of_lt hReads.2, ?_⟩
    omega

/-- A decimal that reads back as a double has the double for its nearest one. -/
theorem isNearest_of_readsBack {e : Int} {n c : Nat} (hFinite : n < infinityRank)
    (hReads : (ofExponent e).readsBack n c = true) : IsNearest (c * (10 : ℚ) ^ e) n := by
  have hUnit : (0 : ℚ) < scale * (ofExponent e).up :=
    mul_pos (Nat.cast_pos.mpr scale_pos) (Nat.cast_pos.mpr (up_pos e))
  obtain ⟨hLow, hHigh, hTie⟩ := le_of_readsBack hReads
  have hBelow : exact (n - 1) + exact n ≤ 2 * (c * (10 : ℚ) ^ e) := by
    rw [← mul_le_mul_iff_of_pos_right hUnit, midpoint_mul, number_mul]
    exact Nat.cast_le.mpr hLow
  have hAbove : 2 * (c * (10 : ℚ) ^ e) ≤ exact n + exact (n + 1) := by
    rw [← mul_le_mul_iff_of_pos_right hUnit, midpoint_mul, number_mul]
    exact Nat.cast_le.mpr hHigh
  apply isNearest_of_cell hFinite.le
  · intro m hLess
    have hOrder : exact m ≤ exact (n - 1) := exact_strictMono.monotone (Nat.le_pred_of_lt hLess)
    refine ⟨by linarith, fun hEqual => hTie (.inl ?_)⟩
    have hMiddle : exact (n - 1) + exact n = 2 * (c * (10 : ℚ) ^ e) := by linarith
    rw [← mul_left_inj' hUnit.ne', midpoint_mul, number_mul] at hMiddle
    exact Nat.cast_injective hMiddle
  · intro m _ hLess
    have hOrder : exact (n + 1) ≤ exact m := exact_strictMono.monotone hLess
    refine ⟨by linarith, fun hEqual => hTie (.inr ?_)⟩
    have hMiddle : 2 * (c * (10 : ℚ) ^ e) = exact n + exact (n + 1) := by linarith
    rw [← mul_left_inj' hUnit.ne', midpoint_mul, number_mul] at hMiddle
    exact Nat.cast_injective hMiddle

/-- Of the two decimals that are tried, the search answers one that reads back. -/
theorem readsBack_of_candidate {s : Step} {n c : Nat} (hCandidate : s.candidate? n = some c) :
    s.readsBack n c = true := by
  simp only [candidate?] at hCandidate
  split at hCandidate
  case h_1 hFirst hSecond =>
    split at hCandidate
    · cases hCandidate
      exact hFirst
    · cases hCandidate
      exact hSecond
  case h_2 hFirst hSecond =>
    cases hCandidate
    exact hFirst
  case h_3 hFirst hSecond =>
    cases hCandidate
    exact hSecond
  case h_4 => cases hCandidate

/-- Where a step is no longer than one unit, the last one below a double reads back. -/
theorem readsBack_below {s : Step} (hDown : 0 < s.down) (hFine : s.down ≤ s.up) {n : Nat}
    (hPos : 0 < n) : s.readsBack n (2 * units n * s.up / s.down) = true := by
  obtain ⟨m, rfl⟩ := Nat.exists_eq_add_one.mpr hPos
  have hLast := Nat.div_add_mod' (2 * units (m + 1) * s.up) s.down
  have hRest := Nat.mod_lt (2 * units (m + 1) * s.up) hDown
  have hLow : (units m + units (m + 1)) * s.up + s.up ≤ 2 * units (m + 1) * s.up := by
    have hOrder : units m < units (m + 1) := units_strictMono (Nat.lt_succ_self m)
    rw [← Nat.succ_mul]
    exact Nat.mul_le_mul_right _ (by omega)
  have hHigh : 2 * units (m + 1) * s.up < (units (m + 1) + units (m + 1 + 1)) * s.up := by
    have hOrder : units (m + 1) < units (m + 1 + 1) := units_strictMono (Nat.lt_succ_self _)
    exact Nat.mul_lt_mul_of_pos_right (by omega) (by omega)
  simp only [readsBack, Nat.add_sub_cancel]
  split
  · simp only [Bool.and_eq_true, decide_eq_true_eq]
    omega
  · simp only [Bool.and_eq_true, decide_eq_true_eq]
    omega

/-- On a fine grid the search finds a decimal. -/
theorem exists_candidate {s : Step} (hDown : 0 < s.down) (hFine : s.down ≤ s.up) {n : Nat}
    (hPos : 0 < n) : ∃ c, s.candidate? n = some c := by
  have hBelow := readsBack_below hDown hFine hPos
  simp only [candidate?, hBelow]
  split
  · exact ⟨_, rfl⟩
  · exact ⟨_, rfl⟩
  · exact ⟨_, rfl⟩
  · rename_i hNone _
    cases hNone

end Step

/-- The shortest decimal of a double reads back as the double. -/
theorem shortest_readsBack {n : Nat} (hPos : 0 < n) :
    (Step.ofExponent (shortest n).exponent).readsBack n (shortest n).digits = true := by
  have hDown : 0 < (Step.ofExponent (-324)).down := by decide +kernel
  have hFine : (Step.ofExponent (-324)).down ≤ (Step.ofExponent (-324)).up := by decide +kernel
  obtain ⟨c, hCandidate⟩ := Step.exists_candidate hDown hFine hPos
  have hTried : (-324 : Int) ∈ exponents := List.mem_map.mpr ⟨633, by simp, by norm_num⟩
  rw [shortest, if_neg hPos.ne']
  cases hFound : exponents.findSome? fun e =>
      ((Step.ofExponent e).candidate? n).map fun c => Scientific.mk c e with
  | none =>
      have hNone := List.findSome?_eq_none_iff.mp hFound _ hTried
      rw [hCandidate] at hNone
      cases hNone
  | some d =>
      obtain ⟨e, _, hDecimal⟩ := List.exists_of_findSome?_eq_some hFound
      obtain ⟨digits, hDigits, rfl⟩ := Option.map_eq_some_iff.mp hDecimal
      exact Step.readsBack_of_candidate hDigits

/-- Every finite double is the nearest one to its shortest decimal. -/
theorem isNearest_shortest {n : Nat} (hFinite : n < infinityRank) :
    IsNearest (shortest n).number n := by
  rcases Nat.eq_zero_or_pos n with rfl | hPos
  · have hUnits : units 0 = 0 := rfl
    have hZero : (shortest 0).number = exact 0 := by
      simp [Scientific.number, shortest, exact, hUnits]
    rw [hZero]
    exact isNearest_exact hFinite.le
  · exact Step.isNearest_of_readsBack hFinite (shortest_readsBack hPos)

theorem isDigit_of_mem_zeros {n : Nat} : ∀ c ∈ List.replicate n '0', c.isDigit = true := by
  intro c hc
  rw [List.eq_of_mem_replicate hc]
  rfl

/-- Zeros behind digits multiply by powers of ten. -/
theorem ofDigitChars_append_zeros (digits : List Char) (n : Nat) :
    Nat.ofDigitChars 10 (digits ++ List.replicate n '0') 0 =
      Nat.ofDigitChars 10 digits 0 * 10 ^ n := by
  rw [ofDigitChars_append_eq, Nat.ofDigitChars_replicate_zero, List.length_replicate, Nat.mul_zero,
    Nat.add_zero]

/-- A point divides the number that the digits are without it. -/
theorem standsFor_point {digits fraction : List Char} (hDigits : ∀ c ∈ digits, c.isDigit = true)
    (hFraction : ∀ c ∈ fraction, c.isDigit = true) :
    StandsFor (digits ++ '.' :: fraction)
      (Nat.ofDigitChars 10 (digits ++ fraction) 0 / (10 : ℚ) ^ fraction.length) := by
  have hEnd : ∀ c ∈ ([] : List Char).head?, c = '.' := by simp
  have hPoint := StandsFor.point hDigits hFraction hEnd
  have hPower : (10 : ℚ) ^ fraction.length ≠ 0 := pow_ne_zero _ (by norm_num)
  rw [List.append_nil] at hPoint
  rw [ofDigitChars_append_eq]
  push_cast
  rwa [add_div, mul_div_assoc, div_self hPower, mul_one]

section Positional

variable {d : Scientific}

theorem number_of_nonneg (hWhole : 0 ≤ d.exponent) :
    d.number = ((d.digits * 10 ^ d.exponent.toNat : Nat) : ℚ) := by
  have hPower := Step.ten_zpow_mul d.exponent
  have hNone : (-d.exponent).toNat = 0 := by omega
  rw [hNone, pow_zero, mul_one] at hPower
  rw [Scientific.number, hPower]
  push_cast
  rfl

theorem number_of_neg (hFraction : d.exponent < 0) :
    d.number = d.digits / (10 : ℚ) ^ (-d.exponent).toNat := by
  have hPower := Step.ten_zpow_mul d.exponent
  have hNone : d.exponent.toNat = 0 := by omega
  rw [hNone, pow_zero] at hPower
  rw [Scientific.number, eq_div_iff (pow_ne_zero _ (by norm_num)), mul_assoc, hPower, mul_one]

/-- A whole decimal is written with zeros behind its digits, and with a fraction of zero if one is
kept. -/
theorem standsFor_positional_of_nonneg (keepsFraction : Bool) (hWhole : 0 ≤ d.exponent)
    {digits : List Char} (hDigits : ∀ c ∈ digits, c.isDigit = true)
    (hValue : Nat.ofDigitChars 10 digits 0 = d.digits) :
    StandsFor (positional keepsFraction digits d.exponent) d.number := by
  have hZeros : ∀ c ∈ digits ++ List.replicate d.exponent.toNat '0', c.isDigit = true :=
    List.forall_mem_append.mpr ⟨hDigits, isDigit_of_mem_zeros⟩
  rw [positional, if_pos hWhole, number_of_nonneg hWhole, ← hValue, ← ofDigitChars_append_zeros]
  cases keepsFraction with
  | false =>
      rw [if_neg Bool.false_ne_true, List.append_nil]
      exact .whole hZeros
  | true =>
      have hPoint := standsFor_point hZeros (isDigit_of_mem_zeros (n := 1))
      have hTenth := ofDigitChars_append_zeros (digits ++ List.replicate d.exponent.toNat '0') 1
      rw [hTenth, List.length_replicate] at hPoint
      push_cast at hPoint
      rwa [pow_one, mul_div_cancel_right₀ _ (by norm_num)] at hPoint

/-- The point stands among the digits when there are enough of them, and otherwise zeros fill the
places behind it. -/
theorem standsFor_positional_of_neg (keepsFraction : Bool) (hFraction : d.exponent < 0)
    {digits : List Char} (hDigits : ∀ c ∈ digits, c.isDigit = true)
    (hValue : Nat.ofDigitChars 10 digits 0 = d.digits) :
    StandsFor (positional keepsFraction digits d.exponent) d.number := by
  rw [positional, if_neg (Int.not_le.mpr hFraction), number_of_neg hFraction]
  by_cases hShort : (-d.exponent).toNat < digits.length
  · have hPoint := standsFor_point
      (fun c hc => hDigits c ((digits.take_prefix (digits.length - (-d.exponent).toNat)).subset hc))
      (fun c hc => hDigits c ((digits.drop_suffix (digits.length - (-d.exponent).toNat)).subset hc))
    rw [List.take_append_drop, hValue, List.length_drop, Nat.sub_sub_self hShort.le] at hPoint
    simp only [if_pos hShort]
    exact hPoint
  · have hFilled : ∀ c ∈ digits.leftpad (-d.exponent).toNat '0', c.isDigit = true :=
      List.forall_mem_append.mpr ⟨isDigit_of_mem_zeros, hDigits⟩
    have hLength : (digits.leftpad (-d.exponent).toNat '0').length = (-d.exponent).toNat := by
      rw [List.leftpad, List.length_append, List.length_replicate]
      omega
    have hSame : Nat.ofDigitChars 10
        (List.replicate 1 '0' ++ digits.leftpad (-d.exponent).toNat '0') 0 = d.digits := by
      show Nat.ofDigitChars 10 (List.replicate (_ + 1) '0' ++ digits) 0 = d.digits
      rw [Nat.ofDigitChars_append, Nat.ofDigitChars_replicate_zero, Nat.mul_zero, hValue]
    have hPoint := standsFor_point (isDigit_of_mem_zeros (n := 1)) hFilled
    rw [hSame, hLength] at hPoint
    simp only [if_neg hShort]
    exact hPoint

/-- Digits with zeros behind them or with a point stand for the decimal. -/
theorem standsFor_positional (keepsFraction : Bool) (d : Scientific) :
    StandsFor (positional keepsFraction (Nat.toDigits 10 d.digits) d.exponent) d.number := by
  have hDigits : ∀ c ∈ Nat.toDigits 10 d.digits, c.isDigit = true :=
    fun c hc => Nat.isDigit_of_mem_toDigits (by omega) (by omega) hc
  rcases le_or_gt 0 d.exponent with hWhole | hFraction
  · exact standsFor_positional_of_nonneg _ hWhole hDigits Nat.ofDigitChars_ten_toDigits
  · exact standsFor_positional_of_neg _ hFraction hDigits Nat.ofDigitChars_ten_toDigits

end Positional

/-- A finite number without a sign is written as digits that stand for a number it is the nearest
double to. -/
theorem exists_standsFor_write {layout : Layout}
    (hPositional : ∀ leading, layout.isPositional leading = true) {x : Float}
    (hSign : signBit x = false) (hFinite : rank x < infinityRank) :
    ∃ q, StandsFor (layout.write x) q ∧ IsNearest q (rank x) := by
  have hNumber : ¬ infinityRank < rank x := Nat.not_lt.mpr hFinite.le
  refine ⟨_, ?_, isNearest_shortest hFinite⟩
  rw [Layout.write, signed, if_neg hNumber]
  simp only [if_neg hFinite.ne, hSign, Scientific.text, hPositional, if_true]
  exact standsFor_positional _ _

end Formula.Decimal
