/-
Natural numbers as doubles.

A natural number below `2 ^ 53` is a double, and the numeral that is written for it reads as this
double.  Shifted to the left it has a significand of exactly 53 bits, which is kept as it is whenever
it is rounded, packed and unpacked again, and multiplied by one.

Main definitions:

* `Decimal.IsNormal` — a significand of 53 bits with an exponent for it;
* `Decimal.IsNormal.double` — their double.

Main results:

* `Decimal.IsNormal.round_shifted` — a product that fits is not rounded;
* `Decimal.IsNormal.unpack_double`, `Decimal.IsNormal.ofFloat_double` — **a double has the
  significand and the exponent that it was made of**;
* `Decimal.whole?_toFloat` — **a small natural number is read as itself**.
-/

import Mathlib
import Tracepoint.Decimal.Binary
import Tracepoint.Decimal.Reader

set_option relaxedAutoImplicit false
set_option autoImplicit false

namespace Tracepoint.Decimal

open Float.Model (Format totalExponent UnpackedFloat)
open Float.Model.UnpackedFloat

/-! ### Significands of 53 bits -/

/-- A significand of 53 bits with an exponent for it. -/
structure IsNormal (m : ℕ) (e : Int) : Prop where
  low : 2 ^ 52 ≤ m
  high : m < 2 ^ 53
  least : -1074 ≤ e
  greatest : e ≤ 971

/-- Shifting out zeros loses nothing. -/
theorem shiftRight_exact (m k : ℕ) :
    ExtendedMantissa.ofMantissaAndAccuracy (m * 2 ^ k) .exact >>> k =
      ExtendedMantissa.ofMantissaAndAccuracy m .exact := by
  induction k generalizing m with
  | zero => rw [Nat.pow_zero, Nat.mul_one]; rfl
  | succ k ih =>
      have hdouble : m * 2 ^ (k + 1) = 2 * m * 2 ^ k := by ring
      have hstep : ExtendedMantissa.ofMantissaAndAccuracy (m * 2 ^ (k + 1)) .exact >>> (k + 1) =
          (ExtendedMantissa.ofMantissaAndAccuracy (2 * m * 2 ^ k) .exact >>> k).shiftRightOne := by
        rw [hdouble]
        rfl
      rw [hstep, ih]
      simp [ExtendedMantissa.ofMantissaAndAccuracy, ExtendedMantissa.shiftRightOne]

namespace IsNormal

variable {m : ℕ} {e : Int} (h : IsNormal m e)

include h

theorem pos : 0 < m :=
  Nat.lt_of_lt_of_le (Nat.two_pow_pos 52) h.low

theorem log2_shifted (k : ℕ) : (m * 2 ^ k).log2 = 52 + k := by
  refine (Nat.log2_eq_iff (Nat.mul_pos h.pos (Nat.two_pow_pos k)).ne').2 ⟨?_, ?_⟩
  · rw [Nat.pow_add]
    exact Nat.mul_le_mul_right _ h.low
  · rw [show 52 + k + 1 = 53 + k by omega, Nat.pow_add]
    exact Nat.mul_lt_mul_of_pos_right h.high (Nat.two_pow_pos k)

/-- However far the significand is shifted to the left, it belongs to its own exponent. -/
theorem targetExponent_shifted (k : ℕ) :
    Format.binary64.targetExponent (totalExponent (m * 2 ^ k) (e - k)) = e := by
  have hleast := h.least
  simp only [Format.targetExponent, totalExponent, h.log2_shifted, Format.mantissaBits,
    Format.minExponent]
  omega

theorem shiftToTargetExponent_shifted (k : ℕ) :
    shiftToTargetExponent Format.binary64 (m * 2 ^ k) (e - k) .exact =
      (ExtendedMantissa.ofMantissaAndAccuracy m .exact, e) := by
  have hamount : (e - (e - k)).toNat = k := by omega
  have hexponent : e - (k : Int) + (k : Int) = e := by omega
  rw [shiftToTargetExponent, h.targetExponent_shifted, shiftToExponent, hamount]
  simp only [shiftRight_exact, hexponent]

/-- **What fits is not rounded.** -/
theorem round_shifted (s : Sign) (k : ℕ) :
    roundWithAccuracy Format.binary64 s (m * 2 ^ k) (e - k) .exact = .finite s m e h.pos := by
  have hagain : shiftToTargetExponent Format.binary64 m e .exact =
      (ExtendedMantissa.ofMantissaAndAccuracy m .exact, e) := by
    have hzero := h.shiftToTargetExponent_shifted 0
    rwa [Nat.pow_zero, Nat.mul_one, Nat.cast_zero, sub_zero] at hzero
  have hrounded : (ExtendedMantissa.ofMantissaAndAccuracy m .exact).roundedMantissa = m := rfl
  have hmantissa : (ExtendedMantissa.ofMantissaAndAccuracy m .exact).mantissa = m := rfl
  simp only [roundWithAccuracy, h.shiftToTargetExponent_shifted, hrounded, hagain, hmantissa,
    dif_neg h.pos.ne']

/-! ### Doubles -/

/-- The double of a significand and an exponent. -/
def double : Float :=
  ⟨Float.Model.pack (.finite .positive m e h.pos)⟩

/-- The fields of a double. The first bit of the significand is not kept. -/
theorem pack_eq : pack Format.binary64 (.finite .positive m e h.pos) =
    packComponents Format.binary64 .positive (BitVec.ofNat 11 (e + 1075).toNat)
      (BitVec.ofNat 52 m) := by
  obtain ⟨hlow, hhigh, hleast, hgreatest⟩ := id h
  have hlog : m.log2 + 1 = Format.binary64.mantissaBits := by
    have hlog2 := h.log2_shifted 0
    rw [Nat.pow_zero, Nat.mul_one] at hlog2
    rw [hlog2]
    rfl
  have hbiased : (e + Format.binary64.exponentBias +
      Format.binary64.mantissaBitsWithoutImplicit).toNat = (e + 1075).toNat := by
    change (e + 1023 + 52).toNat = (e + 1075).toNat
    omega
  have hfinite : ¬2 ^ Format.binary64.exponentBits ≤ (e + 1075).toNat + 1 := by
    change ¬2048 ≤ (e + 1075).toNat + 1
    omega
  simp only [pack, hbiased, if_neg hfinite, if_pos hlog]

theorem toNat_exponent : (BitVec.ofNat 11 (e + 1075).toNat).toNat = (e + 1075).toNat := by
  have hgreatest := h.greatest
  rw [BitVec.toNat_ofNat, Nat.mod_eq_of_lt (by omega)]

theorem toNat_mantissa : (BitVec.ofNat 52 m).toNat = m - 2 ^ 52 := by
  obtain ⟨hlow, hhigh, -, -⟩ := id h
  rw [BitVec.toNat_ofNat]
  omega

/-- The fields lie one behind the other. -/
theorem toNat_packed : (packComponents Format.binary64 .positive (BitVec.ofNat 11 (e + 1075).toNat)
    (BitVec.ofNat 52 m)).toNat = (e + 1075).toNat * 2 ^ 52 + (m - 2 ^ 52) := by
  have hsmall : m - 2 ^ 52 < 2 ^ 52 := by
    have hhigh := h.high
    omega
  change (0#1 ++ BitVec.ofNat 11 (e + 1075).toNat ++ BitVec.ofNat 52 m).toNat = _
  rw [BitVec.toNat_append, BitVec.toNat_append, h.toNat_exponent, h.toNat_mantissa,
    Nat.shiftLeft_eq, Nat.mul_comm]
  simp only [BitVec.toNat_ofNat, Nat.zero_mod, Nat.zero_shiftLeft, Nat.zero_or]
  rw [← Nat.two_pow_add_eq_or_of_lt hsmall, Nat.mul_comm]

theorem toBits_double : h.double.toBits.toNat = (e + 1075).toNat * 2 ^ 52 + (m - 2 ^ 52) := by
  change (pack Format.binary64 (.finite .positive m e h.pos)).toNat = _
  rw [h.pack_eq, h.toNat_packed]

/-- **A double denotes what it was made of.** -/
theorem ofFloat_double : Binary.ofFloat h.double = .finite false m e := by
  obtain ⟨hlow, hhigh, hleast, hgreatest⟩ := id h
  have hbits := h.toBits_double
  have hexponent : h.double.toBits.toNat / 2 ^ 52 % 2 ^ 11 = (e + 1075).toNat := by omega
  have hmantissa : h.double.toBits.toNat % 2 ^ 52 = m - 2 ^ 52 := by omega
  have hsign : ¬2 ^ 63 ≤ h.double.toBits.toNat := by omega
  have hfields : Binary.ofFloat h.double =
      Binary.ofFields (2 ^ 63 ≤ h.double.toBits.toNat) (h.double.toBits.toNat / 2 ^ 52 % 2 ^ 11)
        (h.double.toBits.toNat % 2 ^ 52) := rfl
  rw [hfields, hexponent, hmantissa, decide_eq_false hsign, Binary.ofFields,
    if_neg (by omega), if_neg (by omega)]
  have hsignificand : m - 2 ^ 52 + Binary.hiddenBit = m := Nat.sub_add_cancel hlow
  have hback : ((e + 1075).toNat : Int) - 1075 = e := by omega
  rw [hsignificand, hback]

theorem unpack_double : h.double.toModel.unpack = .finite .positive m e h.pos := by
  obtain ⟨hlow, hhigh, hleast, hgreatest⟩ := id h
  have hlast : BitVec.ofNat 11 (e + 1075).toNat ≠ -1#11 := by
    intro heq
    have hnat := congrArg BitVec.toNat heq
    rw [h.toNat_exponent] at hnat
    change (e + 1075).toNat = 2047 at hnat
    omega
  have hfirst : BitVec.ofNat 11 (e + 1075).toNat ≠ 0#11 := by
    intro heq
    have hnat := congrArg BitVec.toNat heq
    rw [h.toNat_exponent] at hnat
    change (e + 1075).toNat = 0 at hnat
    omega
  have hsign : Sign.ofBitVec (unpackSign (packComponents Format.binary64 .positive
      (BitVec.ofNat 11 (e + 1075).toNat) (BitVec.ofNat 52 m))) = .positive := by
    have hbit : unpackSign (packComponents Format.binary64 .positive
        (BitVec.ofNat 11 (e + 1075).toNat) (BitVec.ofNat 52 m)) = 0#1 := by
      apply BitVec.eq_of_toNat_eq
      change (packComponents Format.binary64 .positive (BitVec.ofNat 11 (e + 1075).toNat)
        (BitVec.ofNat 52 m)).toNat >>> 63 % 2 = 0
      rw [h.toNat_packed, Nat.shiftRight_eq_div_pow]
      omega
    rw [hbit]
    rfl
  have hmantissa : (1#1 ++ BitVec.ofNat 52 m).toNat = m := by
    have hsmall : m - 2 ^ 52 < 2 ^ 52 := by omega
    have hor := Nat.two_pow_add_eq_or_of_lt hsmall 1
    rw [Nat.mul_one, Nat.add_sub_cancel' hlow] at hor
    rw [BitVec.toNat_append, h.toNat_mantissa]
    exact hor.symm
  have hexponent : ((e + 1075).toNat : Int) - (1023 + 52) = e := by omega
  change unpack Format.binary64 (pack Format.binary64 (.finite .positive m e h.pos)) = _
  rw [h.pack_eq]
  simp only [unpack, unpackMantissa_packComponents, unpackExponent_packComponents, if_neg hlast,
    if_neg hfirst, hsign, hmantissa, h.toNat_exponent]
  congr 1

/-- Multiplied by one a double stays as it is. -/
theorem double_mul_one : h.double * Float.ofBits 0x3FF0000000000000 = h.double := by
  have hone : (Float.ofBits 0x3FF0000000000000).toModel.unpack =
      .finite .positive (2 ^ 52) (-52) (by decide) := rfl
  change Float.ofModel (Float.Model.pack (UnpackedFloat.mul Format.binary64 h.double.toModel.unpack
    (Float.ofBits 0x3FF0000000000000).toModel.unpack)) = _
  rw [h.unpack_double, hone]
  change Float.ofModel (Float.Model.pack (roundWithAccuracy Format.binary64 .positive (m * 2 ^ 52)
    (e - (52 : ℕ)) .exact)) = _
  rw [h.round_shifted]
  rfl

end IsNormal

/-! ### Natural numbers -/

section

variable {n : ℕ}

/-- A small natural number is a significand of 53 bits when it is shifted to the left. -/
theorem isNormal_shifted (hpos : n ≠ 0) (hn : n < 2 ^ 53) :
    IsNormal (n * 2 ^ (52 - n.log2)) (n.log2 - 52) := by
  have hlog : n.log2 ≤ 52 := Nat.le_of_lt_succ ((Nat.log2_lt hpos).2 hn)
  obtain ⟨hlow, hhigh⟩ := (Nat.log2_eq_iff hpos).1 rfl
  have hsplit : ∀ k, 2 ^ (n.log2 + k) * 2 ^ (52 - n.log2) = 2 ^ (52 + k) := by
    intro k
    rw [← Nat.pow_add, show n.log2 + k + (52 - n.log2) = 52 + k by omega]
  refine ⟨?_, ?_, by omega, by omega⟩
  · exact (hsplit 0).symm.le.trans (Nat.mul_le_mul_right _ hlow)
  · exact (Nat.mul_lt_mul_of_pos_right hhigh (Nat.two_pow_pos _)).trans_eq (hsplit 1)

/-- A small natural number is made a double without rounding. -/
theorem toFloat_eq_double (hpos : n ≠ 0) (hn : n < 2 ^ 53) :
    n.toUInt64.toFloat = (isNormal_shifted hpos hn).double := by
  have hword : n.toUInt64.toNat = n :=
    UInt64.toNat_ofNat_of_lt' (hn.trans (by decide))
  have hlog : n.log2 ≤ 52 := Nat.le_of_lt_succ ((Nat.log2_lt hpos).2 hn)
  have hsign : compare (n : Int) 0 = .gt := Int.compare_eq_gt.2 (by omega)
  have htarget : Format.binary64.targetExponent (totalExponent n 0) = n.log2 - 52 := by
    simp only [Format.targetExponent, totalExponent, Format.mantissaBits, Format.minExponent]
    omega
  have hamount : (0 - ((n.log2 : Int) - 52)).toNat = 52 - n.log2 := by omega
  have hexponent : (0 : Int) - (52 - n.log2 : ℕ) = n.log2 - 52 := by omega
  have hrounded := (isNormal_shifted hpos hn).round_shifted .positive 0
  rw [Nat.pow_zero, Nat.mul_one, Nat.cast_zero, sub_zero] at hrounded
  have hround : UnpackedFloat.round Format.binary64 .positive n 0 =
      .finite .positive (n * 2 ^ (52 - n.log2)) (n.log2 - 52) (isNormal_shifted hpos hn).pos := by
    simp only [UnpackedFloat.round, htarget, decreaseExponent, hamount, Nat.shiftLeft_eq, hexponent, hrounded]
  change Float.ofModel (Float.Model.pack
    (UnpackedFloat.normalize Format.binary64 n.toUInt64.toNat 0 .positive)) = _
  rw [hword]
  simp only [UnpackedFloat.normalize, hsign, Int.toNat_natCast, hround]
  rfl

/-- Shifted back it is the number again. -/
theorem wholeMagnitude?_shifted (hpos : n ≠ 0) (hn : n < 2 ^ 53) :
    (Binary.finite false (n * 2 ^ (52 - n.log2)) (n.log2 - 52)).wholeMagnitude? = some n := by
  have hlog : n.log2 ≤ 52 := Nat.le_of_lt_succ ((Nat.log2_lt hpos).2 hn)
  have hshift : Nat.pow 2 (-((n.log2 : Int) - 52)).toNat = 2 ^ (52 - n.log2) := by
    rw [show (-((n.log2 : Int) - 52)).toNat = 52 - n.log2 by omega]
    rfl
  rw [Binary.wholeMagnitude?, hshift, Nat.mul_mod_left, Nat.mul_div_cancel _ (Nat.two_pow_pos _),
    if_pos rfl]
  split_ifs with hwhole
  · obtain hfull : n.log2 = 52 := by omega
    rw [hfull]
    exact congrArg some (by simp)
  · rfl

/-- **A small natural number is read as itself.** -/
theorem whole?_toFloat (hn : n < 2 ^ 53) : whole? (Numeral.toFloat ⟨n, 0⟩) = some (n : Int) := by
  have hread : Numeral.toFloat ⟨n, 0⟩ = n.toUInt64.toFloat * Float.ofBits 0x3FF0000000000000 := by
    rw [Numeral.toFloat, if_neg (Int.lt_irrefl 0), Float.ofScientific, dif_pos ⟨hn, Nat.zero_le 22⟩]
    rfl
  by_cases hpos : n = 0
  · subst hpos
    decide +kernel
  · rw [hread, toFloat_eq_double hpos hn, IsNormal.double_mul_one, whole?, IsNormal.ofFloat_double,
      Binary.whole?, wholeMagnitude?_shifted hpos hn]
    rfl

end

end Tracepoint.Decimal
