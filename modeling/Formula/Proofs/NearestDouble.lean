import Mathlib
import Formula.Binary64.Rounding
import Formula.Proofs.FiniteDouble

/-! Rounding to the nearest double is correct. The doubles are told apart by their ranks here:
the chosen rank has an exact value that no other one is nearer to, and of two equally near ones it
is the even one. Infinity takes part with the value at which the next binade would start. -/
namespace Formula.Binary64

theorem leadingWeight_eq : leadingWeight = 4503599627370496 := rfl

/-- Every significand up to the one that starts the next binade has its value in units of the
binade. -/
theorem units_add {binade s : Nat} (hTop : s ≤ 2 * leadingWeight)
    (hNormal : leadingWeight ≤ s ∨ binade = 0) :
    units (binade * leadingWeight + s) = s * 2 ^ binade := by
  rw [units, significand, exponent, Nat.shiftLeft_eq]
  rw [leadingWeight_eq] at hTop hNormal ⊢
  by_cases hSmall : binade * 4503599627370496 + s < 4503599627370496
  · have hBinade : binade = 0 := by omega
    have hExponent : (binade * 4503599627370496 + s) / 4503599627370496 - 1 = 0 := by omega
    rw [if_pos hSmall, hExponent, hBinade, Nat.zero_mul, Nat.zero_add]
  · rw [if_neg hSmall]
    by_cases hNext : s = 2 * 4503599627370496
    · have hExponent : (binade * 4503599627370496 + s) / 4503599627370496 - 1 = binade + 1 := by
        omega
      have hFraction : (binade * 4503599627370496 + s) % 4503599627370496 = 0 := by omega
      rw [hExponent, hFraction, hNext, Nat.pow_succ]
      ring
    · have hExponent : (binade * 4503599627370496 + s) / 4503599627370496 - 1 = binade := by
        omega
      have hSignificand :
          4503599627370496 + (binade * 4503599627370496 + s) % 4503599627370496 = s := by omega
      rw [hExponent, hSignificand]

/-- Every rank is a significand in some binade. Only in the lowest binade it may be below the
leading bit. -/
theorem exists_binade (n : Nat) : ∃ binade s, n = binade * leadingWeight + s ∧
    s < 2 * leadingWeight ∧ (leadingWeight ≤ s ∨ binade = 0) := by
  rw [leadingWeight_eq]
  by_cases hSmall : n < 4503599627370496
  · exact ⟨0, n, by omega, by omega, .inr rfl⟩
  · exact ⟨n / 4503599627370496 - 1, 4503599627370496 + n % 4503599627370496, by omega,
      by omega, .inl (by omega)⟩

/-- Ranks are in the order of the values. -/
theorem units_strictMono : StrictMono units := by
  apply strictMono_nat_of_lt_succ
  intro n
  obtain ⟨binade, s, rfl, hTop, hNormal⟩ := exists_binade n
  rw [Nat.add_assoc, units_add (by omega) hNormal, units_add (by omega) (by omega)]
  exact Nat.mul_lt_mul_of_pos_right (Nat.lt_succ_self s) (Nat.two_pow_pos binade)

/-- A quotient is rounded by half a step at most, and by half a step only to an even number. -/
theorem roundHalfEven_spec (num : Nat) {den : Nat} (hDen : 0 < den) :
    let s := roundHalfEven num den
    2 * (s * den) ≤ 2 * num + den ∧ 2 * num ≤ 2 * (s * den) + den ∧
      (2 * (s * den) = 2 * num + den ∨ 2 * num = 2 * (s * den) + den → s % 2 = 0) := by
  intro s
  have hNum : num / den * den + num % den = num := Nat.div_add_mod' num den
  have hRest := Nat.mod_lt num hDen
  have hStep : (num / den + 1) * den = num / den * den + den := Nat.succ_mul _ _
  by_cases hDown : 2 * (num % den) < den ∨ 2 * (num % den) = den ∧ num / den % 2 = 0
  · have hFloor : s = num / den := if_pos hDown
    rw [hFloor]
    omega
  · have hCeil : s = num / den + 1 := if_neg hDown
    rw [hCeil, hStep]
    omega

/-- The grid on which a quotient is rounded: steps of one unit of its binade. -/
theorem nearestRank_eq (num : Nat) {den : Nat} (hDen : 0 < den) :
    ∃ binade s, nearestRank num den = min infinityRank (binade * leadingWeight + s) ∧
      s = roundHalfEven (num * scale) (den * 2 ^ binade) ∧ s ≤ 2 * leadingWeight ∧
        (leadingWeight * (den * 2 ^ binade) ≤ num * scale ∧ leadingWeight ≤ s ∨ binade = 0) := by
  obtain ⟨binade, hBinade⟩ : ∃ binade, binade = (num * scale / den).log2 - 52 := ⟨_, rfl⟩
  obtain ⟨s, hRound⟩ : ∃ s, s = roundHalfEven (num * scale) (den * 2 ^ binade) := ⟨_, rfl⟩
  have hWidth : 0 < den * 2 ^ binade := Nat.mul_pos hDen (Nat.two_pow_pos binade)
  have hSpec := roundHalfEven_spec (num * scale) hWidth
  rw [← hRound] at hSpec
  obtain ⟨hAbove, hBelow, _⟩ := hSpec
  refine ⟨binade, s, ?_, hRound, ?_, ?_⟩
  · rw [hRound, nearestRank, ← hBinade, Nat.shiftLeft_eq]
  · -- The quotient lies below the next binade, so it is not rounded past its start.
    have hLess : num * scale / den < 2 * leadingWeight * 2 ^ binade := by
      have hPower : (2 : Nat) ^ ((num * scale / den).log2 + 1) ≤ 2 ^ (53 + binade) :=
        Nat.pow_le_pow_right Nat.two_pos (by omega)
      rw [Nat.pow_add 2 53] at hPower
      exact Nat.lt_of_lt_of_le Nat.lt_log2_self hPower
    have hAmount := (Nat.div_lt_iff_lt_mul hDen).mp hLess
    by_contra hOver
    have hSteps := Nat.mul_le_mul_right (den * 2 ^ binade) (Nat.not_le.mp hOver)
    have hTop : (2 * leadingWeight).succ * (den * 2 ^ binade) =
        2 * leadingWeight * 2 ^ binade * den + den * 2 ^ binade := by
      rw [Nat.succ_mul]
      ring
    omega
  · by_cases hZero : binade = 0
    · exact .inr hZero
    · have hQuotient : num * scale / den ≠ 0 := by
        intro hNone
        rw [hNone] at hBinade
        exact hZero hBinade
      have hLeast : leadingWeight * 2 ^ binade ≤ num * scale / den := by
        have hLog := Nat.log2_self_le hQuotient
        have hExponent : (num * scale / den).log2 = 52 + binade := by omega
        rw [hExponent, Nat.pow_add] at hLog
        exact hLog
      have hAmount : leadingWeight * (den * 2 ^ binade) ≤ num * scale := by
        have hProduct := (Nat.le_div_iff_mul_le hDen).mp hLeast
        rw [Nat.mul_assoc, Nat.mul_comm (2 ^ binade)] at hProduct
        exact hProduct
      refine .inl ⟨hAmount, ?_⟩
      by_contra hUnder
      have hSteps := Nat.mul_le_mul_right (den * 2 ^ binade) (Nat.not_le.mp hUnder)
      rw [Nat.succ_mul] at hSteps
      omega

section Cell

variable {num den binade s m : Nat}

/-- A quotient that is rounded to a rank lies in the upper half of the way to it from a smaller
one. A significand at the start of its binade was not rounded up, so the steps below it, which are
smaller, do not matter. -/
theorem units_add_units_le (hDen : 0 < den)
    (hRound : s = roundHalfEven (num * scale) (den * 2 ^ binade)) (hTop : s ≤ 2 * leadingWeight)
    (hNormal : leadingWeight * (den * 2 ^ binade) ≤ num * scale ∧ leadingWeight ≤ s ∨ binade = 0)
    (hLess : m < binade * leadingWeight + s) :
    (units m + units (binade * leadingWeight + s)) * den ≤ 2 * (num * scale) ∧
      ((units m + units (binade * leadingWeight + s)) * den = 2 * (num * scale) →
        (binade * leadingWeight + s) % 2 = 0) := by
  have hWidth : 0 < den * 2 ^ binade := Nat.mul_pos hDen (Nat.two_pow_pos binade)
  have hSpec := roundHalfEven_spec (num * scale) hWidth
  rw [← hRound] at hSpec
  obtain ⟨hAbove, _, hTie⟩ := hSpec
  have hParity : (binade * leadingWeight + s) % 2 = s % 2 := by
    rw [leadingWeight_eq]
    omega
  have hUnits := units_add hTop (hNormal.imp_left And.right)
  by_cases hInner : leadingWeight < s ∨ binade = 0
  · obtain ⟨r, rfl⟩ : ∃ r, s = r + 1 := Nat.exists_eq_add_one.mpr (by
      rcases hInner with hInner | rfl
      · exact Nat.zero_lt_of_lt hInner
      · omega)
    have hBelow : units m ≤ r * 2 ^ binade := by
      rw [← units_add (by omega) (by omega)]
      exact units_strictMono.monotone (Nat.lt_succ_iff.mp hLess)
    have hSum : (r * 2 ^ binade + (r + 1) * 2 ^ binade) * den + den * 2 ^ binade =
        2 * ((r + 1) * (den * 2 ^ binade)) := by ring
    have hLeft := Nat.mul_le_mul_right den (Nat.add_le_add_right hBelow ((r + 1) * 2 ^ binade))
    rw [hUnits, hParity]
    exact ⟨by omega, fun hEqual => hTie (by omega)⟩
  · have hStart : s = leadingWeight := by omega
    have hAmount : leadingWeight * (den * 2 ^ binade) ≤ num * scale := by
      rcases hNormal with hNormal | hZero
      · exact hNormal.1
      · exact absurd (.inr hZero) hInner
    have hBelow := Nat.mul_lt_mul_of_pos_right
      (Nat.add_lt_add_right (units_strictMono hLess) (units (binade * leadingWeight + s))) hDen
    have hSum : (units (binade * leadingWeight + s) + units (binade * leadingWeight + s)) * den =
        2 * (leadingWeight * (den * 2 ^ binade)) := by
      rw [hUnits, hStart]
      ring
    omega

/-- A quotient that is rounded to a rank lies in the lower half of the way from it to a larger
one. -/
theorem le_units_add_units (hDen : 0 < den)
    (hRound : s = roundHalfEven (num * scale) (den * 2 ^ binade)) (hTop : s ≤ 2 * leadingWeight)
    (hNormal : leadingWeight ≤ s ∨ binade = 0) (hLess : binade * leadingWeight + s < m) :
    2 * (num * scale) ≤ (units (binade * leadingWeight + s) + units m) * den ∧
      (2 * (num * scale) = (units (binade * leadingWeight + s) + units m) * den →
        (binade * leadingWeight + s) % 2 = 0) := by
  have hWidth : 0 < den * 2 ^ binade := Nat.mul_pos hDen (Nat.two_pow_pos binade)
  have hSpec := roundHalfEven_spec (num * scale) hWidth
  rw [← hRound] at hSpec
  obtain ⟨_, hBelow, hTie⟩ := hSpec
  have hParity : (binade * leadingWeight + s) % 2 = s % 2 := by
    rw [leadingWeight_eq]
    omega
  have hNext : (s + 1) * 2 ^ binade ≤ units (binade * leadingWeight + (s + 1)) := by
    by_cases hInner : s < 2 * leadingWeight
    · rw [units_add hInner (by omega)]
    · have hBinade : binade * leadingWeight + (s + 1) =
          (binade + 1) * leadingWeight + (leadingWeight + 1) := by
        rw [leadingWeight_eq] at hTop hInner ⊢
        omega
      rw [hBinade, units_add (by rw [leadingWeight_eq]; omega) (.inl (Nat.le_succ _)),
        Nat.pow_succ, Nat.mul_comm (2 ^ binade), ← Nat.mul_assoc]
      exact Nat.mul_le_mul_right _ (by omega)
  have hAbove := Nat.le_trans hNext (units_strictMono.monotone hLess)
  have hSum : (s * 2 ^ binade + (s + 1) * 2 ^ binade) * den =
      2 * (s * (den * 2 ^ binade)) + den * 2 ^ binade := by ring
  have hRight := Nat.mul_le_mul_right den (Nat.add_le_add_left hAbove (s * 2 ^ binade))
  rw [units_add hTop hNormal, hParity]
  exact ⟨by omega, fun hEqual => hTie (by omega)⟩

end Cell

/-- Exact value of the double of rank `n`. -/
def exact (n : Nat) : ℚ := units n / scale

/-- No double is nearer to `q` than the one of rank `n`, and any other one as near is the odd of
the two. -/
structure IsNearest (q : ℚ) (n : Nat) : Prop where
  isNumber : n ≤ infinityRank
  nearest : ∀ m ≤ infinityRank, |exact n - q| ≤ |exact m - q|
  tie : ∀ m ≤ infinityRank, |exact m - q| = |exact n - q| → m = n ∨ n % 2 = 0

theorem scale_pos : 0 < scale := Nat.shiftLeft_pos_iff.mpr Nat.one_pos

theorem exact_strictMono : StrictMono exact := by
  intro m n hLess
  have hScale : (0 : ℚ) < scale := Nat.cast_pos.mpr scale_pos
  exact div_lt_div_of_pos_right (Nat.cast_lt.mpr (units_strictMono hLess)) hScale

/-- A double is the nearest one when the number lies between the midpoints to all others, and on a
midpoint only if the rank is even. -/
theorem isNearest_of_cell {q : ℚ} {n : Nat} (hNumber : n ≤ infinityRank)
    (hBelow : ∀ m < n, exact m + exact n ≤ 2 * q ∧ (exact m + exact n = 2 * q → n % 2 = 0))
    (hAbove : ∀ m ≤ infinityRank, n < m →
      2 * q ≤ exact n + exact m ∧ (2 * q = exact n + exact m → n % 2 = 0)) :
    IsNearest q n := by
  have hLower (m : Nat) (hLess : m < n) :
      |exact n - q| ≤ |exact m - q| ∧ (|exact m - q| = |exact n - q| → n % 2 = 0) := by
    obtain ⟨hMiddle, hTie⟩ := hBelow m hLess
    have hOrder := exact_strictMono hLess
    have hDistance : |exact m - q| = q - exact m := by
      rw [abs_sub_comm, abs_of_pos (by linarith)]
    rw [hDistance]
    refine ⟨abs_le.mpr ⟨by linarith, by linarith⟩, fun hEqual => hTie ?_⟩
    rcases abs_choice (exact n - q) with hSide | hSide
    · linarith
    · linarith
  have hUpper (m : Nat) (hLast : m ≤ infinityRank) (hLess : n < m) :
      |exact n - q| ≤ |exact m - q| ∧ (|exact m - q| = |exact n - q| → n % 2 = 0) := by
    obtain ⟨hMiddle, hTie⟩ := hAbove m hLast hLess
    have hOrder := exact_strictMono hLess
    have hDistance : |exact m - q| = exact m - q := abs_of_pos (by linarith)
    rw [hDistance]
    refine ⟨abs_le.mpr ⟨by linarith, by linarith⟩, fun hEqual => hTie ?_⟩
    rcases abs_choice (exact n - q) with hSide | hSide
    · linarith
    · linarith
  refine ⟨hNumber, fun m hLast => ?_, fun m hLast hEqual => ?_⟩
  · rcases Nat.lt_trichotomy m n with hLess | rfl | hLess
    · exact (hLower m hLess).1
    · exact le_refl _
    · exact (hUpper m hLast hLess).1
  · rcases Nat.lt_trichotomy m n with hLess | rfl | hLess
    · exact .inr ((hLower m hLess).2 hEqual)
    · exact .inl rfl
    · exact .inr ((hUpper m hLast hLess).2 hEqual)

/-- A midpoint and a quotient over one denominator. -/
theorem exact_add_exact (m n num : Nat) {den : Nat} (hDen : 0 < den) :
    exact m + exact n = (((units m + units n) * den : Nat) : ℚ) / (scale * den) ∧
      2 * ((num : ℚ) / den) = ((2 * (num * scale) : Nat) : ℚ) / (scale * den) := by
  have hScale : (scale : ℚ) ≠ 0 := Nat.cast_ne_zero.mpr scale_pos.ne'
  have hDen : (den : ℚ) ≠ 0 := Nat.cast_ne_zero.mpr hDen.ne'
  push_cast
  constructor
  · rw [exact, exact]
    field_simp
  · field_simp

/-- Quotients are rounded to the nearest double. -/
theorem isNearest_nearestRank (num : Nat) {den : Nat} (hDen : 0 < den) :
    IsNearest (num / den) (nearestRank num den) := by
  obtain ⟨binade, s, hRank, hRound, hTop, hNormal⟩ := nearestRank_eq num hDen
  have hPos : (0 : ℚ) < scale * den :=
    mul_pos (Nat.cast_pos.mpr scale_pos) (Nat.cast_pos.mpr hDen)
  have hBelow (m n : Nat) : exact m + exact n ≤ 2 * ((num : ℚ) / den) ↔
      (units m + units n) * den ≤ 2 * (num * scale) := by
    obtain ⟨hMiddle, hTwice⟩ := exact_add_exact m n num hDen
    rw [hMiddle, hTwice, div_le_div_iff_of_pos_right hPos, Nat.cast_le]
  have hAbove (m n : Nat) : 2 * ((num : ℚ) / den) ≤ exact m + exact n ↔
      2 * (num * scale) ≤ (units m + units n) * den := by
    obtain ⟨hMiddle, hTwice⟩ := exact_add_exact m n num hDen
    rw [hMiddle, hTwice, div_le_div_iff_of_pos_right hPos, Nat.cast_le]
  have hEqual (m n : Nat) : exact m + exact n = 2 * ((num : ℚ) / den) ↔
      (units m + units n) * den = 2 * (num * scale) := by
    obtain ⟨hMiddle, hTwice⟩ := exact_add_exact m n num hDen
    rw [hMiddle, hTwice, div_left_inj' hPos.ne', Nat.cast_inj]
  by_cases hFinite : binade * leadingWeight + s ≤ infinityRank
  · rw [hRank, Nat.min_eq_right hFinite]
    apply isNearest_of_cell hFinite
    · intro m hLess
      rw [hBelow, hEqual]
      exact units_add_units_le hDen hRound hTop hNormal hLess
    · intro m _ hLess
      rw [hAbove, eq_comm, hEqual, eq_comm]
      exact le_units_add_units hDen hRound hTop (hNormal.imp_left And.right) hLess
  · have hOver := Nat.not_le.mp hFinite
    rw [hRank, Nat.min_eq_left (Nat.le_of_lt hOver)]
    -- The quotient lies behind the midpoint to a rank above that of infinity.
    have hPast := (units_add_units_le hDen hRound hTop hNormal hOver).1
    rw [← hBelow] at hPast
    have hInfinity := exact_strictMono hOver
    apply isNearest_of_cell (Nat.le_refl _)
    · intro m hLess
      have hOrder := exact_strictMono hLess
      exact ⟨by linarith, fun hTie => absurd hTie (by linarith)⟩
    · intro m hLast hLess
      exact absurd hLess (Nat.not_lt.mpr hLast)

/-- A double is the nearest one to its own value. -/
theorem isNearest_exact {n : Nat} (hNumber : n ≤ infinityRank) : IsNearest (exact n) n := by
  apply isNearest_of_cell hNumber
  · intro m hLess
    have hOrder := exact_strictMono hLess
    exact ⟨by linarith, fun hEqual => absurd hEqual (by linarith)⟩
  · intro m _ hLess
    have hOrder := exact_strictMono hLess
    exact ⟨by linarith, fun hEqual => absurd hEqual (by linarith)⟩

/-- There is one nearest double. Two would be even, with an odd one between them that is nearer. -/
theorem IsNearest.unique {q : ℚ} {m n : Nat} (hFirst : IsNearest q m) (hSecond : IsNearest q n) :
    m = n := by
  wlog hLess : m < n generalizing m n
  · rcases Nat.lt_or_eq_of_le (Nat.not_lt.mp hLess) with hLess | hEqual
    · exact (this hSecond hFirst hLess).symm
    · exact hEqual.symm
  have hDistance : |exact m - q| = |exact n - q| :=
    le_antisymm (hFirst.nearest n hSecond.isNumber) (hSecond.nearest m hFirst.isNumber)
  have hEven : n % 2 = 0 := (hSecond.tie m hFirst.isNumber hDistance).resolve_left hLess.ne
  have hEvens : m % 2 = 0 :=
    (hFirst.tie n hSecond.isNumber hDistance.symm).resolve_left hLess.ne'
  have hBelow := exact_strictMono (Nat.lt_succ_self m)
  have hAbove : exact (m + 1) < exact n := exact_strictMono (by omega)
  have hOpposite : exact m - q = -(exact n - q) := by
    refine (abs_eq_abs.mp hDistance).resolve_left fun hSame => ?_
    linarith
  have hInside : |exact (m + 1) - q| < exact n - q := abs_lt.mpr ⟨by linarith, by linarith⟩
  have hOutside : |exact m - q| = exact n - q := by
    rw [hOpposite, abs_neg, abs_of_pos (by linarith)]
  have hBetween := hFirst.nearest (m + 1) (Nat.le_trans hLess hSecond.isNumber)
  linarith

/-- What is a double exactly is rounded to no other one. -/
theorem IsNearest.eq_of_exact {n m : Nat} (hNumber : n ≤ infinityRank)
    (hNearest : IsNearest (exact n) m) : m = n :=
  hNearest.unique (isNearest_exact hNumber)

/-- What is too large is rounded to infinity, so no rank of a NaN ever comes out. -/
theorem nearestRank_le (num den : Nat) : nearestRank num den ≤ infinityRank :=
  Nat.min_le_left _ _

/-- Without a sign, infinity has its rank too. -/
theorem rank_ofRank_false {n : Nat} (hNumber : n ≤ infinityRank) : rank (ofRank false n) = n := by
  rcases Nat.lt_or_eq_of_le hNumber with hFinite | rfl
  · exact rank_ofRank false hFinite
  · decide +kernel

theorem signBit_ofRank_false {n : Nat} (hNumber : n ≤ infinityRank) :
    signBit (ofRank false n) = false := by
  rcases Nat.lt_or_eq_of_le hNumber with hFinite | rfl
  · exact signBit_ofRank false hFinite
  · decide +kernel

theorem rank_nearest (num den : Nat) : rank (nearest num den) = nearestRank num den :=
  rank_ofRank_false (nearestRank_le num den)

theorem signBit_nearest (num den : Nat) : signBit (nearest num den) = false :=
  signBit_ofRank_false (nearestRank_le num den)

/-- A quotient that is a double exactly is rounded to that double. -/
theorem nearest_eq_of_exact {num den : Nat} {x : Float} (hDen : 0 < den)
    (hSign : signBit x = false) (hNumber : rank x ≤ infinityRank)
    (hExact : (num : ℚ) / den = exact (rank x)) : nearest num den = x := by
  have hNearest := isNearest_nearestRank num hDen
  rw [hExact] at hNearest
  have hSelf := ofRank_signBit_rank x
  rw [hSign] at hSelf
  rw [nearest, hNearest.eq_of_exact hNumber, hSelf]

end Formula.Binary64
