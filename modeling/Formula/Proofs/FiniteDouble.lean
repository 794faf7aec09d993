import Mathlib
import Formula.Binary64.Grid

/-! Finite doubles are given by a sign and a rank. Doubles are patterns of bits that arithmetic
unpacks and packs again; for a finite double nothing is lost on the way, so changing the sign of
one changes its sign bit and nothing else. -/
namespace Formula.Binary64

open Float.Model (Format)
open Float.Model.UnpackedFloat

theorem infinityRank_lt_signWeight : infinityRank < signWeight := by decide

theorem signWeight_add_self : signWeight + signWeight = 2 ^ 64 := by decide

/-- The pattern of bits as a number: the sign counts most, then the exponent, then the mantissa. -/
theorem toNat_packComponents (s : Sign) (e : BitVec 11) (m : BitVec 52) :
    (packComponents .binary64 s e m).toNat =
      s.toBitVec.toNat * signWeight + (e.toNat * leadingWeight + m.toNat) := by
  rw [packComponents, BitVec.toNat_append, BitVec.toNat_append,
    ← Nat.shiftLeft_add_eq_or_of_lt e.isLt, ← Nat.shiftLeft_add_eq_or_of_lt m.isLt]
  simp only [Nat.shiftLeft_eq, signWeight, leadingWeight]
  omega

/-- A finite pattern is kept by the double that is made of it. That of a NaN need not be, because
all of them become one. -/
theorem toBits_ofBits (s : Sign) (e : BitVec 11) (m : BitVec 52) (hFinite : e.toNat < 2047) :
    (Float.ofBits ⟨packComponents .binary64 s e m⟩).toBits = ⟨packComponents .binary64 s e m⟩ := by
  have hNumber : isNaNBits (packComponents .binary64 s e m) = false := by
    have hExponent : e ≠ 2047#11 := by
      intro h
      subst e
      exact absurd hFinite (by decide)
    simp [isNaNBits, hExponent]
  show UInt64.ofBitVec (pack .binary64 (unpack .binary64 (packComponents .binary64 s e m))) = _
  rw [pack_unpack, hNumber]
  rfl

/-- Negation changes the sign that is packed. -/
theorem neg_unpack (s : Sign) (e : BitVec 11) (m : BitVec 52) :
    (unpack .binary64 (packComponents .binary64 s e m)).neg =
      unpack .binary64 (packComponents .binary64 (-s) e m) := by
  simp only [unpack, unpackMantissa_packComponents, unpackExponent_packComponents,
    unpackSign_packComponents, Sign.ofBitVec_toBitVec]
  split
  · split
    · rfl
    · rfl
  · split
    · split
      · rfl
      · rfl
    · rfl

/-- Negation changes the sign in the pattern and keeps the rest of it. -/
theorem neg_ofBits (s : Sign) (e : BitVec 11) (m : BitVec 52) (hFinite : e.toNat < 2047) :
    Float.neg (.ofBits ⟨packComponents .binary64 s e m⟩) =
      .ofBits ⟨packComponents .binary64 (-s) e m⟩ := by
  have hBits := congrArg UInt64.toBitVec (toBits_ofBits s e m hFinite)
  apply Float.toBits_inj.mp
  show UInt64.ofBitVec (pack .binary64 (unpack .binary64
    (Float.ofBits ⟨packComponents .binary64 s e m⟩).toBits.toBitVec).neg) = _
  rw [hBits, neg_unpack]
  rfl

/-- Sign of the doubles with the given sign bit. -/
def sign (negative : Bool) : Sign := if negative then .negative else .positive

/-- The rank of a finite double is its exponent and mantissa read as one number. Both are the same
for either sign. -/
theorem ofRank_eq_ofBits {n : Nat} (hFinite : n < infinityRank) :
    ∃ e : BitVec 11, ∃ m : BitVec 52, e.toNat < 2047 ∧ n = e.toNat * leadingWeight + m.toNat ∧
      ∀ negative, ofRank negative n = .ofBits ⟨packComponents .binary64 (sign negative) e m⟩ := by
  have hPos : 0 < leadingWeight := by decide
  have hExponent : n / leadingWeight < 2047 := (Nat.div_lt_iff_lt_mul hPos).mpr hFinite
  have hMantissa : n % leadingWeight < 2 ^ 52 := Nat.mod_lt n hPos
  have hBits : n / leadingWeight < 2 ^ 11 := Nat.lt_trans hExponent (by decide)
  have hSum := Nat.div_add_mod' n leadingWeight
  refine ⟨.ofNat 11 (n / leadingWeight), .ofNat 52 (n % leadingWeight), ?_, ?_, ?_⟩
  · rw [BitVec.toNat_ofNat, Nat.mod_eq_of_lt hBits]
    exact hExponent
  · rw [BitVec.toNat_ofNat, BitVec.toNat_ofNat, Nat.mod_eq_of_lt hMantissa,
      Nat.mod_eq_of_lt hBits, hSum]
  · intro negative
    rw [ofRank]
    congr 1
    apply UInt64.toNat_inj.mp
    show _ = (packComponents .binary64 _ _ _).toNat
    rw [toNat_packComponents, BitVec.toNat_ofNat, BitVec.toNat_ofNat,
      Nat.mod_eq_of_lt hMantissa, Nat.mod_eq_of_lt hBits, hSum, UInt64.toNat_ofNat']
    have hWeight := infinityRank_lt_signWeight
    have hRoom := signWeight_add_self
    cases negative with
    | true =>
        show (signWeight + n) % 2 ^ 64 = 1 * signWeight + n
        rw [Nat.mod_eq_of_lt (by omega), Nat.one_mul]
    | false =>
        show n % 2 ^ 64 = 0 * signWeight + n
        rw [Nat.mod_eq_of_lt (by omega), Nat.zero_mul, Nat.zero_add]

theorem toNat_toBits_ofRank (negative : Bool) {n : Nat} (hFinite : n < infinityRank) :
    (ofRank negative n).toBits.toNat = (if negative then signWeight else 0) + n := by
  obtain ⟨e, m, hExponent, hRank, hBits⟩ := ofRank_eq_ofBits hFinite
  rw [hBits, toBits_ofBits _ e m hExponent]
  show (packComponents .binary64 _ e m).toNat = _
  rw [toNat_packComponents, ← hRank]
  cases negative with
  | true => exact congrArg (· + n) (Nat.one_mul signWeight)
  | false => exact congrArg (· + n) (Nat.zero_mul signWeight)

theorem rank_ofRank (negative : Bool) {n : Nat} (hFinite : n < infinityRank) :
    rank (ofRank negative n) = n := by
  have hWeight : n < signWeight := Nat.lt_trans hFinite infinityRank_lt_signWeight
  rw [rank, toNat_toBits_ofRank negative hFinite]
  cases negative with
  | true =>
      show (signWeight + n) % signWeight = n
      rw [Nat.add_mod_left, Nat.mod_eq_of_lt hWeight]
  | false => rw [if_neg Bool.false_ne_true, Nat.zero_add, Nat.mod_eq_of_lt hWeight]

theorem signBit_ofRank (negative : Bool) {n : Nat} (hFinite : n < infinityRank) :
    signBit (ofRank negative n) = negative := by
  have hWeight : n < signWeight := Nat.lt_trans hFinite infinityRank_lt_signWeight
  rw [signBit, toNat_toBits_ofRank negative hFinite]
  cases negative with
  | true => exact decide_eq_true (Nat.le_add_right signWeight n)
  | false => exact decide_eq_false (by simpa using hWeight)

/-- Changing the sign leaves the rank as it is. -/
theorem neg_ofRank (negative : Bool) {n : Nat} (hFinite : n < infinityRank) :
    Float.neg (ofRank negative n) = ofRank (!negative) n := by
  obtain ⟨e, m, hExponent, _, hBits⟩ := ofRank_eq_ofBits hFinite
  rw [hBits, hBits, neg_ofBits _ e m hExponent]
  cases negative <;> rfl

/-- A double is given by its sign and its rank. -/
theorem ofRank_signBit_rank (x : Float) : ofRank (signBit x) (rank x) = x := by
  have hBits := x.toBits.toNat_lt
  have hRoom := signWeight_add_self
  have hNat : (if signBit x then signWeight + rank x else rank x) = x.toBits.toNat := by
    by_cases hSign : signWeight ≤ x.toBits.toNat
    · have hNegative : signBit x = true := decide_eq_true hSign
      rw [if_pos hNegative, rank, Nat.mod_eq_sub_mod hSign, Nat.mod_eq_of_lt (by omega)]
      omega
    · have hPositive : ¬ signBit x = true := by simpa [signBit] using hSign
      rw [if_neg hPositive, rank, Nat.mod_eq_of_lt (by omega)]
  rw [ofRank, hNat, UInt64.ofNat_toNat, Float.ofBits_toBits]

/-- The double without its sign. -/
def magnitude (x : Float) : Float := ofRank false (rank x)

theorem rank_magnitude {x : Float} (hFinite : rank x < infinityRank) :
    rank (magnitude x) = rank x := rank_ofRank false hFinite

theorem signBit_magnitude {x : Float} (hFinite : rank x < infinityRank) :
    signBit (magnitude x) = false := signBit_ofRank false hFinite

/-- A double without a sign is its own magnitude, infinity and NaN included. -/
theorem magnitude_of_signBit_false {x : Float} (hSign : signBit x = false) :
    magnitude x = x := by
  have hSelf := ofRank_signBit_rank x
  rw [hSign] at hSelf
  exact hSelf

/-- A finite double with a sign is the negation of its magnitude. -/
theorem neg_magnitude_of_signBit {x : Float} (hFinite : rank x < infinityRank)
    (hSign : signBit x = true) : Float.neg (magnitude x) = x := by
  have hSelf := ofRank_signBit_rank x
  rw [hSign] at hSelf
  rw [magnitude, neg_ofRank false hFinite]
  exact hSelf

end Formula.Binary64
