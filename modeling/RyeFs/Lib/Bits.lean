import Mathlib.Data.Nat.BitIndices
import Mathlib.Data.Nat.Bitwise

namespace bits

/-- The number of ones in the binary expansion. -/
def popcount (n : Nat) : Nat := n.bitIndices.length

@[simp] theorem popcount_zero : popcount 0 = 0 := by
  simp [popcount]

@[simp] theorem popcount_bit (b : Bool) (n : Nat) : popcount (Nat.bit b n) = popcount n + b.toNat := by
  cases b <;> simp [popcount]

/-- Clearing the lowest one takes one off the count. -/
theorem popcount_and_sub_one {n : Nat} (hn : n ≠ 0) : popcount (n &&& (n - 1)) + 1 = popcount n := by
  induction n using Nat.binaryRec with
  | zero => exact absurd rfl hn
  | bit b n ih =>
    cases b with
    | true =>
      have hpred : Nat.bit true n - 1 = Nat.bit false n := by
        rw [Nat.bit_val, Nat.bit_val]
        rfl
      rw [hpred, Nat.land_bit, Nat.and_self, popcount_bit, popcount_bit]
      rfl
    | false =>
      have hne : n ≠ 0 := by
        rintro rfl
        exact hn rfl
      have hpred : Nat.bit false n - 1 = Nat.bit true (n - 1) := by
        rw [Nat.bit_val, Nat.bit_val, Bool.toNat_false, Bool.toNat_true]
        omega
      rw [hpred, Nat.land_bit, popcount_bit, popcount_bit, ← ih hne]
      rfl

theorem and_sub_one_lt {n : Nat} (hn : n ≠ 0) : n &&& (n - 1) < n := by
  have hle := Nat.and_le_right (n := n) (m := n - 1)
  omega

/-- The upper half of a word of `2 * w` bits is empty exactly on the small words. -/
theorem and_upper_ne_zero_iff {n w : Nat} (hn : n < 2 ^ (2 * w)) :
    n &&& ((2 ^ w - 1) <<< w) ≠ 0 ↔ 2 ^ w ≤ n := by
  have hupper : n >>> w < 2 ^ w := by
    rw [Nat.shiftRight_eq_div_pow]
    apply Nat.div_lt_of_lt_mul
    rw [← Nat.pow_add, ← Nat.two_mul]
    exact hn
  have hshift : (n &&& ((2 ^ w - 1) <<< w)) >>> w = n / 2 ^ w := by
    rw [Nat.shiftRight_and_distrib, Nat.shiftLeft_shiftRight, Nat.and_two_pow_sub_one_eq_mod,
      Nat.mod_eq_of_lt hupper, Nat.shiftRight_eq_div_pow]
  constructor
  · intro hne
    by_contra hlt
    apply hne
    apply Nat.eq_of_testBit_eq
    intro i
    rw [Nat.zero_testBit, Nat.testBit_and, Nat.testBit_shiftLeft]
    by_cases hi : w ≤ i
    · have hsmall : n < 2 ^ i := (Nat.lt_of_not_le hlt).trans_le (Nat.pow_le_pow_right Nat.two_pos hi)
      rw [Nat.testBit_lt_two_pow hsmall, Bool.false_and]
    · simp [hi]
  · intro hle hzero
    rw [hzero, Nat.zero_shiftRight] at hshift
    have hpos := Nat.div_pos hle (Nat.two_pow_pos w)
    omega

/-- A mask of the upper bits rounds down to a multiple of its lowest one. -/
theorem and_upper_mask {n v w : Nat} (hn : n < 2 ^ (w + v)) :
    n &&& ((2 ^ v - 1) <<< w) = n - n % 2 ^ w := by
  have hshift : (n >>> w) <<< w = n - n % 2 ^ w := by
    rw [Nat.shiftRight_eq_div_pow, Nat.shiftLeft_eq]
    have hdivision := Nat.div_add_mod' n (2 ^ w)
    omega
  rw [← hshift]
  apply Nat.eq_of_testBit_eq
  intro i
  rw [Nat.testBit_and, Nat.testBit_shiftLeft, Nat.testBit_shiftLeft, Nat.testBit_two_pow_sub_one]
  by_cases hi : w ≤ i
  · rw [Nat.testBit_shiftRight, Nat.add_sub_cancel' hi]
    by_cases hlt : i < w + v
    · simp [hi, show i - w < v by omega]
    · have hlarge : n < 2 ^ i := hn.trans_le (Nat.pow_le_pow_right Nat.two_pos (by omega))
      rw [Nat.testBit_lt_two_pow hlarge]
      simp
  · simp [hi]

theorem log2_shiftRight {n w : Nat} (hle : 2 ^ w ≤ n) : (n >>> w).log2 + w = n.log2 := by
  have hpow := Nat.two_pow_pos w
  have hn : n ≠ 0 := by omega
  have hlow := Nat.log2_self_le hn
  have hhigh := Nat.lt_log2_self (n := n)
  have hw : w ≤ n.log2 := (Nat.le_log2 hn).mpr hle
  obtain ⟨d, hd⟩ := Nat.exists_eq_add_of_le hw
  have hdiv : n >>> w ≠ 0 := by
    rw [Nat.shiftRight_eq_div_pow]
    exact (Nat.div_pos hle hpow).ne'
  rw [hd, Nat.add_comm w d, Nat.add_right_cancel_iff, Nat.log2_eq_iff hdiv, Nat.shiftRight_eq_div_pow]
  rw [hd] at hlow hhigh
  constructor
  · rw [Nat.le_div_iff_mul_le hpow, ← Nat.pow_add, Nat.add_comm]
    exact hlow
  · rw [Nat.div_lt_iff_lt_mul hpow, ← Nat.pow_add]
    rw [show d + 1 + w = w + d + 1 by omega]
    exact hhigh

/-- The lowest bit does not move the highest one. -/
theorem log2_or_one (n : Nat) : (n ||| 1).log2 = n.log2 := by
  have hhalf : (n ||| 1) / 2 = n / 2 := by
    rw [Nat.or_div_two]
    simp
  rw [Nat.log2_def, Nat.log2_def n, hhalf]
  have hle := Nat.left_le_or (n := n) (m := 1)
  by_cases hn : 2 ≤ n
  · rw [if_pos hn, if_pos (by omega)]
  · rw [if_neg hn, if_neg (by omega)]

/-- A low mask is clear exactly on the multiples of its power of two. -/
theorem low_mask_and_eq_zero_iff {n j : Nat} : (2 ^ j - 1) &&& n = 0 ↔ 2 ^ j ∣ n := by
  rw [Nat.and_comm, Nat.and_two_pow_sub_one_eq_mod]
  exact (Nat.dvd_iff_mod_eq_zero ..).symm

theorem or_shiftLeft_eq_add {low i : Nat} (hlow : low < 2 ^ i) (high : Nat) :
    low ||| high <<< i = low + high * 2 ^ i := by
  rw [Nat.or_comm, ← Nat.shiftLeft_add_eq_or_of_lt hlow, Nat.shiftLeft_eq, Nat.add_comm]

end bits
