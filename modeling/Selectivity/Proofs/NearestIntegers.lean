import Selectivity.Binary64
import Mathlib

/-! Where integers come to stand among the doubles. Rounding keeps their order, because a pattern
grows with the magnitude that it stands for, and a significand that is rounded up carries no
further than to the next power of two. Up to `2 ^ 53` every integer has a place of its own. -/

namespace Selectivity.Binary64

variable {m n : Nat} {i j : Int}

/-! ### Rounding to whole units -/

theorem roundShift_eq (n shift : Nat) :
    roundShift n shift = n / 2 ^ shift +
      if 2 ^ shift < 2 * (n % 2 ^ shift) ∨ 2 * (n % 2 ^ shift) = 2 ^ shift ∧ n / 2 ^ shift % 2 = 1 then 1 else 0 := by
  simp only [roundShift, Nat.shiftRight_eq_div_pow, Nat.pow_eq, gt_iff_lt]
  split <;> rfl

theorem le_roundShift (n shift : Nat) : n / 2 ^ shift ≤ roundShift n shift := by
  rw [roundShift_eq]
  exact Nat.le_add_right _ _

theorem roundShift_le (n shift : Nat) : roundShift n shift ≤ n / 2 ^ shift + 1 := by
  rw [roundShift_eq]
  split <;> omega

theorem roundShift_mono (shift : Nat) (less : m ≤ n) : roundShift m shift ≤ roundShift n shift := by
  rcases (Nat.div_le_div_right less : m / 2 ^ shift ≤ n / 2 ^ shift).lt_or_eq with below | same
  · exact (roundShift_le m shift).trans (below.trans_le (le_roundShift n shift))
  · have rest : m % 2 ^ shift ≤ n % 2 ^ shift := by
      have first := Nat.div_add_mod m (2 ^ shift)
      have second := Nat.div_add_mod n (2 ^ shift)
      rw [same] at first
      omega
    rw [roundShift_eq, roundShift_eq, same]
    split <;> split <;> omega

/-! ### Patterns of natural numbers -/

/-- The significand of the nearest double, as far as it has 53 bits. -/
def significand (n : Nat) : Nat :=
  if n.log2 ≤ 52 then n * 2 ^ (52 - n.log2) else roundShift n (n.log2 - 52)

theorem patternOfNat_eq (some : n ≠ 0) (finite : n.log2 ≤ 1023) :
    patternOfNat n = (n.log2 + 1022) * 2 ^ 52 + significand n := by
  simp only [patternOfNat, some, if_false, Nat.not_lt.mpr finite, significand, Nat.shiftLeft_eq, Nat.pow_eq]

theorem patternOfNat_of_large (large : 1023 < n.log2) : patternOfNat n = 2047 * 2 ^ 52 := by
  have some : n ≠ 0 := by
    rintro rfl
    simp at large
  simp only [patternOfNat, some, if_false, large, if_true, Nat.pow_eq]

theorem significand_small (some : n ≠ 0) (small : n.log2 ≤ 52) :
    2 ^ 52 ≤ significand n ∧ significand n < 2 ^ 53 := by
  have low := Nat.log2_self_le some
  have high := @Nat.lt_log2_self n
  have whole : 2 ^ n.log2 * 2 ^ (52 - n.log2) = 2 ^ 52 := by rw [← Nat.pow_add, Nat.add_sub_cancel' small]
  rw [significand, if_pos small]
  constructor
  · exact whole ▸ Nat.mul_le_mul_right _ low
  · have next : 2 ^ (n.log2 + 1) * 2 ^ (52 - n.log2) = 2 ^ 53 := by
      rw [Nat.pow_succ, Nat.mul_right_comm, whole, ← Nat.pow_succ]
    exact next ▸ Nat.mul_lt_mul_of_pos_right high (Nat.two_pow_pos _)

theorem significand_bounds (some : n ≠ 0) : 2 ^ 52 ≤ significand n ∧ significand n ≤ 2 ^ 53 := by
  by_cases small : n.log2 ≤ 52
  · exact (significand_small some small).imp_right Nat.le_of_lt
  · have wide : n.log2 - 52 + 52 = n.log2 := by omega
    have low : 2 ^ 52 ≤ n / 2 ^ (n.log2 - 52) := by
      rw [Nat.le_div_iff_mul_le (Nat.two_pow_pos _), ← Nat.pow_add, Nat.add_comm, wide]
      exact Nat.log2_self_le some
    have high : n / 2 ^ (n.log2 - 52) < 2 ^ 53 := by
      rw [Nat.div_lt_iff_lt_mul (Nat.two_pow_pos _), ← Nat.pow_add]
      have next : 53 + (n.log2 - 52) = n.log2 + 1 := by omega
      exact next ▸ Nat.lt_log2_self
    rw [significand, if_neg small]
    exact ⟨low.trans (le_roundShift _ _), (roundShift_le _ _).trans high⟩

theorem significand_mono (same : m.log2 = n.log2) (less : m ≤ n) : significand m ≤ significand n := by
  rw [significand, significand, same]
  split
  next => exact Nat.mul_le_mul_right _ less
  next => exact roundShift_mono _ less

theorem log2_mono (less : m ≤ n) : m.log2 ≤ n.log2 := by
  rw [Nat.log2_eq_log_two, Nat.log2_eq_log_two]
  exact Nat.log_mono_right less

/-- The largest pattern is that of infinity. -/
theorem patternOfNat_le (n : Nat) : patternOfNat n ≤ 2047 * 2 ^ 52 := by
  rcases Nat.eq_zero_or_pos n with rfl | positive
  · exact Nat.zero_le _
  · rcases Nat.lt_or_ge 1023 n.log2 with large | finite
    · exact (patternOfNat_of_large large).le
    · have bounds := significand_bounds positive.ne'
      rw [patternOfNat_eq positive.ne' finite]
      omega

theorem patternOfNat_mono (less : m ≤ n) : patternOfNat m ≤ patternOfNat n := by
  rcases Nat.eq_zero_or_pos m with rfl | positive
  · exact Nat.zero_le _
  · have positive' := positive.trans_le less
    rcases Nat.lt_or_ge 1023 n.log2 with large | finite
    · exact (patternOfNat_of_large large).symm ▸ patternOfNat_le m
    · have tops := log2_mono less
      have first := significand_bounds positive.ne'
      have second := significand_bounds positive'.ne'
      rw [patternOfNat_eq positive.ne' (tops.trans finite), patternOfNat_eq positive'.ne' finite]
      rcases tops.lt_or_eq with below | same
      · omega
      · have bigger := significand_mono same less
        omega

/-- Below `2 ^ 53` nothing is rounded. -/
theorem patternOfNat_strict (small : m < 2 ^ 53) (less : m < n) : patternOfNat m < patternOfNat n := by
  have some : n ≠ 0 := by omega
  rcases Nat.lt_or_ge 1023 n.log2 with large | finite
  · rw [patternOfNat_of_large large]
    rcases Nat.eq_zero_or_pos m with rfl | positive
    · decide
    · have top : m.log2 ≤ 52 := Nat.lt_succ_iff.mp ((Nat.log2_lt positive.ne').mpr small)
      have bounds := significand_small positive.ne' top
      rw [patternOfNat_eq positive.ne' (by omega)]
      omega
  · have second := significand_bounds some
    rw [patternOfNat_eq some finite]
    rcases Nat.eq_zero_or_pos m with rfl | positive
    · have none : patternOfNat 0 = 0 := rfl
      omega
    · have top : m.log2 ≤ 52 := Nat.lt_succ_iff.mp ((Nat.log2_lt positive.ne').mpr small)
      have first := significand_small positive.ne' top
      rw [patternOfNat_eq positive.ne' (by omega)]
      rcases (log2_mono less.le).lt_or_eq with below | same
      · omega
      · have bigger : significand m < significand n := by
          rw [significand, significand, ← same, if_pos top, if_pos top]
          exact Nat.mul_lt_mul_of_pos_right less (Nat.two_pow_pos _)
        omega

/-! ### Places of integers -/

open Float.Model (Format UnpackedFloat) in
/-- A pattern that stands for a number or an infinity is read as it was written. -/
theorem toBits_ofBits {bits : UInt64} (number : bits.toNat % 2 ^ 63 ≤ 2047 * 2 ^ 52) :
    (Float.ofBits bits).toBits = bits := by
  have exponent : (@UnpackedFloat.unpackExponent Format.binary64 bits.toBitVec).toNat =
      bits.toNat / 2 ^ 52 % 2 ^ 11 := by
    rw [UnpackedFloat.unpackExponent_def, BitVec.extractLsb'_toNat, Nat.shiftRight_eq_div_pow]
    rfl
  have mantissa : (@UnpackedFloat.unpackMantissa Format.binary64 bits.toBitVec).toNat =
      bits.toNat % 2 ^ 52 := by
    rw [UnpackedFloat.unpackMantissa_def, BitVec.extractLsb'_toNat]
    rfl
  have numeric : @UnpackedFloat.isNaNBits Format.binary64 bits.toBitVec = false := by
    simp only [UnpackedFloat.isNaNBits, decide_eq_false_iff_not, not_and, not_not]
    intro full
    have ones : bits.toNat / 2 ^ 52 % 2 ^ 11 = 2047 := exponent.symm.trans (congrArg BitVec.toNat full)
    apply BitVec.eq_of_toNat_eq
    rw [mantissa]
    show bits.toNat % 2 ^ 52 = 0
    omega
  have packed : UnpackedFloat.pack Format.binary64 (UnpackedFloat.unpack Format.binary64 bits.toBitVec) =
      bits.toBitVec := by
    rw [UnpackedFloat.pack_unpack, numeric]
    rfl
  exact congrArg UInt64.ofBitVec packed

theorem rank_ofInt (i : Int) :
    rank (ofInt i) = if i < 0 then -(patternOfNat i.natAbs : Int) else patternOfNat i.natAbs := by
  have small := patternOfNat_le i.natAbs
  have bits : (UInt64.ofNat (patternOfInt i)).toNat = patternOfInt i := by
    apply UInt64.toNat_ofNat_of_lt'
    simp only [patternOfInt, UInt64.size, Nat.pow_eq]
    split <;> omega
  have read : (ofInt i).toBits.toNat = patternOfInt i := by
    rw [ofInt, toBits_ofBits, bits]
    rw [bits, patternOfInt, Nat.pow_eq]
    split <;> omega
  simp only [rank, read, patternOfInt, Nat.pow_eq]
  split
  next negative => rw [if_neg (by omega), Nat.add_sub_cancel_left]
  next => rw [if_pos (by omega)]

theorem rank_ofInt_mono (less : i ≤ j) : rank (ofInt i) ≤ rank (ofInt j) := by
  rw [rank_ofInt, rank_ofInt]
  split
  next negative =>
    split
    next =>
      have closer : patternOfNat j.natAbs ≤ patternOfNat i.natAbs := patternOfNat_mono (by omega)
      omega
    next => omega
  next =>
    have further : patternOfNat i.natAbs ≤ patternOfNat j.natAbs := patternOfNat_mono (by omega)
    split <;> omega

/-- As far as a significand reaches, different integers have different places. -/
theorem rank_ofInt_strict (small : i.natAbs ≤ 2 ^ 53) (small' : j.natAbs ≤ 2 ^ 53) (less : i < j) :
    rank (ofInt i) < rank (ofInt j) := by
  rw [rank_ofInt, rank_ofInt]
  split
  next negative =>
    split
    next =>
      have closer : patternOfNat j.natAbs < patternOfNat i.natAbs := patternOfNat_strict (by omega) (by omega)
      omega
    next =>
      have some : 0 < patternOfNat i.natAbs := patternOfNat_strict (m := 0) (by omega) (by omega)
      omega
  next =>
    have further : patternOfNat i.natAbs < patternOfNat j.natAbs := patternOfNat_strict (by omega) (by omega)
    split <;> omega

theorem rank_ofInt_inj (small : i.natAbs ≤ 2 ^ 53) (small' : j.natAbs ≤ 2 ^ 53)
    (same : rank (ofInt i) = rank (ofInt j)) : i = j := by
  rcases lt_trichotomy i j with less | equal | more
  · exact absurd same (rank_ofInt_strict small small' less).ne
  · exact equal
  · exact absurd same (rank_ofInt_strict small' small more).ne'

end Selectivity.Binary64
