import Mathlib
import Formula.Decimal.Reading
import Formula.Proofs.NearestDouble
import Formula.Proofs.PrintedWords

/-! The values of numbers in a text. A run of digits and points stands for the decimal number up to
its second point, and is read as the double nearest to that number; so every double that has no sign
is the value of its own decimal expansion. -/
namespace Formula.Decimal

open Binary64

/-- The number that a run of digits and points stands for. A second point ends it, and no digits
at all stand for zero. -/
inductive StandsFor : List Char → ℚ → Prop where
  | whole {digits : List Char} (hDigits : ∀ c ∈ digits, c.isDigit = true) :
      StandsFor digits (Nat.ofDigitChars 10 digits 0)
  | point {digits fraction rest : List Char} (hDigits : ∀ c ∈ digits, c.isDigit = true)
      (hFraction : ∀ c ∈ fraction, c.isDigit = true) (hRest : ∀ c ∈ rest.head?, c = '.') :
      StandsFor (digits ++ '.' :: (fraction ++ rest))
        (Nat.ofDigitChars 10 digits 0 +
          Nat.ofDigitChars 10 fraction 0 / (10 : ℚ) ^ fraction.length)

theorem tenPow_eq (n : Nat) : tenPow n = 10 ^ n := rfl

theorem ne_point_of_isDigit {c : Char} (hDigit : c.isDigit = true) : (c != '.') = true := by
  rw [bne_iff_ne]
  rintro rfl
  cases hDigit

/-- The digits of a run end at its first point. -/
theorem wholeDigits_append {digits : List Char} (hDigits : ∀ c ∈ digits, c.isDigit = true)
    {rest : List Char} (hRest : ∀ c ∈ rest.head?, c = '.') :
    (digits ++ rest).takeWhile (· != '.') = digits ∧
      (digits ++ rest).dropWhile (· != '.') = rest := by
  have hAll : ∀ c ∈ digits, (c != '.') = true := fun c hc => ne_point_of_isDigit (hDigits c hc)
  have hEnd : ∀ c ∈ rest.head?, (c != '.') = false := by
    intro c hc
    rw [hRest c hc]
    rfl
  obtain ⟨hNone, hWhole⟩ := run_ends hEnd
  rw [List.takeWhile_append_of_pos hAll, List.dropWhile_append_of_pos hAll, hNone, hWhole,
    List.append_nil]
  exact ⟨rfl, rfl⟩

/-- A run without a point is read as the nearest double to a whole number. -/
theorem value_whole {digits : List Char} (hDigits : ∀ c ∈ digits, c.isDigit = true) :
    value digits = nearest (Nat.ofDigitChars 10 digits 0) 1 := by
  have hEnd : ∀ c ∈ ([] : List Char).head?, c = '.' := by simp
  obtain ⟨hTake, hDrop⟩ := wholeDigits_append hDigits hEnd
  rw [List.append_nil] at hTake hDrop
  rw [value, fractionDigits, wholeDigits, hTake, hDrop]
  simp [tenPow]

/-- A run with a point is read as the nearest double to a fraction. What stands behind a second
point has no part in it. -/
theorem value_point {digits fraction rest : List Char}
    (hDigits : ∀ c ∈ digits, c.isDigit = true) (hFraction : ∀ c ∈ fraction, c.isDigit = true)
    (hRest : ∀ c ∈ rest.head?, c = '.') :
    value (digits ++ '.' :: (fraction ++ rest)) =
      nearest (Nat.ofDigitChars 10 (digits ++ fraction) 0) (10 ^ fraction.length) := by
  have hEnd : ∀ c ∈ ('.' :: (fraction ++ rest)).head?, c = '.' := by simp
  obtain ⟨hTake, hDrop⟩ := wholeDigits_append hDigits hEnd
  rw [value, fractionDigits, wholeDigits, hTake, hDrop, List.tail_cons,
    (wholeDigits_append hFraction hRest).1, tenPow_eq]

theorem isDigit_of_mem_takeWhile {text : List Char}
    (hText : ∀ c ∈ text, isNumeralChar c = true) :
    ∀ c ∈ text.takeWhile (· != '.'), c.isDigit = true := by
  intro c hc
  have hPoint : (c != '.') = true := List.all_eq_true.mp List.all_takeWhile c hc
  have hNumeral := hText c ((List.takeWhile_prefix _).subset hc)
  rw [isNumeralChar, Bool.or_eq_true, beq_iff_eq] at hNumeral
  exact hNumeral.resolve_right (bne_iff_ne.mp hPoint)

theorem head?_dropWhile_eq_point (text : List Char) :
    ∀ c ∈ (text.dropWhile (· != '.')).head?, c = '.' := by
  intro c hc
  have hHead := List.head?_dropWhile_not (· != '.') text
  rw [Option.mem_def.mp hc] at hHead
  simpa using hHead

/-- Every run of digits and points stands for a number. -/
theorem exists_standsFor {run : List Char} (hRun : ∀ c ∈ run, isNumeralChar c = true) :
    ∃ q, StandsFor run q := by
  have hDigits := isDigit_of_mem_takeWhile hRun
  have hPoint := head?_dropWhile_eq_point run
  rw [← List.takeWhile_append_dropWhile (p := (· != '.')) (l := run)]
  cases hDrop : run.dropWhile (· != '.') with
  | nil =>
      rw [List.append_nil]
      exact ⟨_, .whole hDigits⟩
  | cons c rest =>
      rw [hDrop] at hPoint
      obtain rfl : c = '.' := hPoint c rfl
      have hRest : ∀ c ∈ rest, isNumeralChar c = true := by
        intro c hc
        apply hRun c
        apply (List.dropWhile_suffix (· != '.')).subset
        rw [hDrop]
        exact List.mem_cons_of_mem _ hc
      rw [← List.takeWhile_append_dropWhile (p := (· != '.')) (l := rest)]
      exact ⟨_, .point hDigits (isDigit_of_mem_takeWhile hRest) (head?_dropWhile_eq_point rest)⟩

/-- Digits behind others move these up by one place each. -/
theorem ofDigitChars_append_eq (digits fraction : List Char) :
    Nat.ofDigitChars 10 (digits ++ fraction) 0 =
      Nat.ofDigitChars 10 digits 0 * 10 ^ fraction.length + Nat.ofDigitChars 10 fraction 0 := by
  rw [Nat.ofDigitChars_append, Nat.ofDigitChars_eq_ofDigitChars_zero, Nat.mul_comm]

/-- A run is read as the double nearest to the number that it stands for. -/
theorem StandsFor.value_isNearest {run : List Char} {q : ℚ} (hRun : StandsFor run q) :
    signBit (value run) = false ∧ IsNearest q (rank (value run)) := by
  cases hRun with
  | whole hDigits =>
      rw [value_whole hDigits, rank_nearest]
      have hNearest := isNearest_nearestRank (Nat.ofDigitChars 10 run 0) Nat.one_pos
      rw [Nat.cast_one, div_one] at hNearest
      exact ⟨signBit_nearest _ _, hNearest⟩
  | @point digits fraction rest hDigits hFraction hRest =>
      rw [value_point hDigits hFraction hRest, rank_nearest, ofDigitChars_append_eq]
      have hPlaces : 0 < 10 ^ fraction.length := Nat.pow_pos (by omega)
      have hNearest := isNearest_nearestRank
        (Nat.ofDigitChars 10 digits 0 * 10 ^ fraction.length + Nat.ofDigitChars 10 fraction 0)
        hPlaces
      have hPower : (10 : ℚ) ^ fraction.length ≠ 0 := pow_ne_zero _ (by norm_num)
      push_cast at hNearest
      rw [add_div, mul_div_assoc, div_self hPower, mul_one] at hNearest
      exact ⟨signBit_nearest _ _, hNearest⟩

/-- A fraction that is less than one fits into its places. -/
theorem length_padded {places k : Nat} (hPlaces : 0 < places) (hLess : k < tenPow places) :
    (padded places k).length = places := by
  have hLength : (Nat.toDigits 10 k).length ≤ places :=
    (Nat.length_toDigits_le_iff (by omega) hPlaces).mpr hLess
  rw [padded, List.leftpad, List.length_append, List.length_replicate,
    Nat.sub_add_cancel hLength]

theorem ofDigitChars_padded (places k : Nat) :
    Nat.ofDigitChars 10 (padded places k) 0 = k := by
  rw [padded, List.leftpad, Nat.ofDigitChars_append, Nat.ofDigitChars_replicate_zero,
    Nat.mul_zero, Nat.ofDigitChars_ten_toDigits]

/-- A number that is written with some places is read as a quotient. -/
theorem value_withPoint {places : Nat} (hPlaces : 0 < places) (k : Nat) :
    value (withPoint places k) = nearest k (tenPow places) := by
  have hDigits : ∀ c ∈ Nat.toDigits 10 (k / tenPow places), c.isDigit = true :=
    fun c hc => Nat.isDigit_of_mem_toDigits (by omega) (by omega) hc
  have hFraction : ∀ c ∈ padded places (k % tenPow places), c.isDigit = true :=
    fun c hc => isDigit_of_mem_padded hc
  have hLess : k % tenPow places < tenPow places := Nat.mod_lt k (Nat.pow_pos (by omega))
  have hEnd : ∀ c ∈ ([] : List Char).head?, c = '.' := by simp
  have hValue := value_point hDigits hFraction hEnd
  rw [List.append_nil, ofDigitChars_append_eq, length_padded hPlaces hLess,
    Nat.ofDigitChars_ten_toDigits, ofDigitChars_padded, ← tenPow_eq, Nat.div_add_mod'] at hValue
  exact hValue

/-- Every number without a sign is the value of its exact decimal expansion. Infinity has one too:
its rank, read as that of a finite double, is the number at which the next binade would start. -/
theorem exists_value_eq {x : Float} (hSign : signBit x = false) (hNumber : rank x ≤ infinityRank) :
    ∃ run, run ≠ [] ∧ (∀ c ∈ run, isNumeralChar c = true) ∧ value run = x := by
  obtain ⟨p, hPlaces, hScale⟩ : ∃ p, 0 < p ∧ scale = 1 <<< p := ⟨1074, by omega, rfl⟩
  refine ⟨withPoint p (units (rank x) * 5 ^ p), withPoint_ne_nil _ _,
    fun c hc => isNumeralChar_of_mem_withPoint hc, ?_⟩
  rw [value_withPoint hPlaces]
  apply nearest_eq_of_exact (Nat.pow_pos (by omega)) hSign hNumber
  have hTen : 10 ^ p = 2 ^ p * 5 ^ p := Nat.mul_pow 2 5 p
  have hFive : (5 : ℚ) ^ p ≠ 0 := pow_ne_zero _ (by norm_num)
  rw [exact, hTen, hScale, Nat.one_shiftLeft]
  push_cast
  exact mul_div_mul_right _ _ hFive

end Formula.Decimal
