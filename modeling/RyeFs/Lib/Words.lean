import Mathlib.Algebra.Ring.Nat
import Mathlib.Data.Nat.Bitwise

namespace words

/-- Some bit of the mask is set in the flag word. -/
def HasFlag (flags mask : UInt32) : Prop :=
  ∃ i, flags.toNat.testBit i = true ∧ mask.toNat.testBit i = true

theorem and_ne_zero_iff_hasFlag {flags mask : UInt32} : flags &&& mask ≠ 0 ↔ HasFlag flags mask := by
  have hzero : flags &&& mask = 0 ↔ flags.toNat &&& mask.toNat = 0 := by
    rw [← UInt32.toNat_inj, UInt32.toNat_and]
    rfl
  rw [ne_eq, hzero]
  constructor
  · intro hne
    obtain ⟨i, hi⟩ := Nat.exists_testBit_of_ne_zero hne
    rw [Nat.testBit_and, Bool.and_eq_true] at hi
    exact ⟨i, hi⟩
  · rintro ⟨i, hflag, hmask⟩ heq
    have hi := congrArg (fun n => n.testBit i) heq
    simp [Nat.testBit_and, hflag, hmask] at hi

instance (flags mask : UInt32) : Decidable (HasFlag flags mask) :=
  decidable_of_iff (flags &&& mask ≠ 0) and_ne_zero_iff_hasFlag

/-- A flag of the complement is a set bit that the mask does not have. -/
theorem hasFlag_not_iff {flags mask : UInt32} :
    HasFlag flags (~~~mask) ↔
      ∃ i, flags.toNat.testBit i = true ∧ mask.toNat.testBit i = false := by
  have hnot (i : Nat) : (~~~mask).toNat.testBit i = (decide (i < 32) && !mask.toNat.testBit i) := by
    have hbit := BitVec.getLsbD_not (x := mask.toBitVec) (i := i)
    exact hbit
  unfold HasFlag
  constructor
  · rintro ⟨i, hflag, hmask⟩
    rw [hnot, Bool.and_eq_true, Bool.not_eq_true'] at hmask
    exact ⟨i, hflag, hmask.2⟩
  · rintro ⟨i, hflag, hmask⟩
    have hi : i < 32 := by
      by_contra hge
      have hlarge : flags.toNat < 2 ^ i :=
        flags.toNat_lt.trans_le (Nat.pow_le_pow_right Nat.two_pos (by omega))
      rw [Nat.testBit_lt_two_pow hlarge] at hflag
      exact absurd hflag (by decide)
    refine ⟨i, hflag, ?_⟩
    rw [hnot, Bool.and_eq_true, decide_eq_true_eq, Bool.not_eq_true']
    exact ⟨hi, hmask⟩

/-- The two flag words have the same bits, those of the mask aside. -/
def AgreeOutside (mask f g : UInt32) : Prop := f &&& ~~~mask = g &&& ~~~mask

instance (mask f g : UInt32) : Decidable (AgreeOutside mask f g) :=
  inferInstanceAs (Decidable (_ = _))

theorem AgreeOutside.hasFlag_iff {mask f g other : UInt32} (h : AgreeOutside mask f g)
    (hother : other &&& mask = 0) : HasFlag f other ↔ HasFlag g other := by
  have hkeep : ~~~mask &&& other = other := by
    rw [← UInt32.toBitVec_inj] at hother ⊢
    ext i hi
    have hbit := congrArg (fun v => v[i]) hother
    simp only [UInt32.toBitVec_and, UInt32.toBitVec_not, UInt32.toBitVec_ofNat, BitVec.getElem_and,
      BitVec.getElem_not] at hbit ⊢
    cases hmask : mask.toBitVec[i] <;> simp_all
  have hand : f &&& other = g &&& other := by
    rw [← hkeep, ← UInt32.and_assoc, ← UInt32.and_assoc, h]
  rw [← and_ne_zero_iff_hasFlag, ← and_ne_zero_iff_hasFlag, hand]

/-- Clearing the lowest set bit leaves nothing exactly on the powers of two. -/
theorem and_sub_one_eq_zero_iff {x : UInt32} (hx : x ≠ 0) :
    x &&& (x - 1) = 0 ↔ ∃ k, x.toNat = 2 ^ k := by
  have hpos : x.toNat ≠ 0 := by
    rw [ne_eq, ← UInt32.toNat_inj] at hx
    exact hx
  have hsub : (x - 1).toNat = x.toNat - 1 :=
    UInt32.toNat_sub_of_le x 1 (UInt32.le_iff_toNat_le.mpr (Nat.one_le_iff_ne_zero.mpr hpos))
  rw [← UInt32.toNat_inj, UInt32.toNat_and, hsub]
  exact Nat.and_sub_one_eq_zero_iff_isPowerOfTwo hpos

theorem toNat_eq_zero_iff {x : UInt64} : x.toNat = 0 ↔ x = 0 := by
  rw [← UInt64.toNat_inj]
  rfl

/-- A count of `n` things, `d` to a block, fits in `t` blocks exactly when the
block of the last one is there. No product is formed on machine words. -/
theorem pred_div_lt_iff {n d t : UInt64} (hn : n ≠ 0) (hd : d ≠ 0) :
    (n - 1) / d < t ↔ n.toNat ≤ t.toNat * d.toNat := by
  have hnpos : 1 ≤ n.toNat := Nat.pos_of_ne_zero (mt toNat_eq_zero_iff.mp hn)
  have hdpos : 0 < d.toNat := Nat.pos_of_ne_zero (mt toNat_eq_zero_iff.mp hd)
  have hpred : (n - 1).toNat = n.toNat - 1 :=
    UInt64.toNat_sub_of_le n 1 (UInt64.le_iff_toNat_le.mpr hnpos)
  rw [UInt64.lt_iff_toNat_lt, UInt64.toNat_div, hpred, Nat.div_lt_iff_lt_mul hdpos]
  omega

end words
