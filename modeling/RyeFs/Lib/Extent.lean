import Mathlib.Algebra.BigOperators.Group.Finset.Basic
import Mathlib.Algebra.Ring.Nat
import Mathlib.Data.List.Sort
import Mathlib.Order.Interval.Finset.Nat

namespace extents

/-- A run of `len` consecutive blocks from `start` on. -/
structure Extent where
  start : Nat
  len : Nat
  deriving DecidableEq, Repr

/-- The first block past the extent. -/
def Extent.stop (e : Extent) : Nat := e.start + e.len

/-- The block numbers the extent occupies. -/
def Extent.blocks (e : Extent) : Finset Nat := Finset.Ico e.start e.stop

@[simp] theorem Extent.mem_blocks {e : Extent} {b : Nat} :
    b ∈ e.blocks ↔ e.start ≤ b ∧ b < e.start + e.len := by
  simp [Extent.blocks, Extent.stop]

@[simp] theorem Extent.card_blocks (e : Extent) : e.blocks.card = e.len := by
  simp [Extent.blocks, Extent.stop]

theorem Extent.blocks_subset_range_iff {e : Extent} {size : Nat} :
    e.blocks ⊆ Finset.range size ↔ e.len = 0 ∨ e.stop ≤ size := by
  constructor
  · intro hsub
    by_cases hlen : e.len = 0
    · exact Or.inl hlen
    · have hlast : e.start + e.len - 1 ∈ Finset.range size :=
        hsub (Extent.mem_blocks.mpr (by omega))
      rw [Finset.mem_range] at hlast
      exact Or.inr (by unfold Extent.stop; omega)
  · intro hfits b hb
    rw [Extent.mem_blocks] at hb
    unfold Extent.stop at hfits
    exact Finset.mem_range.mpr (by omega)

/-- Two extents share no block exactly when one is empty or they lie one after
the other. -/
theorem Extent.disjoint_blocks_iff {a b : Extent} :
    Disjoint a.blocks b.blocks ↔ a.len = 0 ∨ b.len = 0 ∨ a.stop ≤ b.start ∨ b.stop ≤ a.start := by
  unfold Extent.stop
  rw [Finset.disjoint_left]
  constructor
  · intro hdisj
    by_contra hnot
    -- the larger of the two starts is the witness of an overlap
    exact hdisj (a := max a.start b.start) (Extent.mem_blocks.mpr (by omega))
      (Extent.mem_blocks.mpr (by omega))
  · intro hcases c ha hb
    rw [Extent.mem_blocks] at ha hb
    omega

/-- Named extents laid out on a volume of `size` blocks: each occupies some
blocks of the volume, and no block is occupied twice. -/
structure Layout (ι : Type) where
  size : Nat
  parts : List ι
  extent : ι → Extent
  nodup : parts.Nodup
  nonempty : ∀ i ∈ parts, 0 < (extent i).len
  inside : ∀ i ∈ parts, (extent i).blocks ⊆ Finset.range size
  disjoint : ∀ i ∈ parts, ∀ j ∈ parts, i ≠ j → Disjoint (extent i).blocks (extent j).blocks

variable {ι : Type}

/-- The part `i` ends at or before the start of the part `j`. -/
def Layout.Before (L : Layout ι) (i j : ι) : Prop :=
  (L.extent i).stop ≤ (L.extent j).start

theorem Layout.stop_le_size (L : Layout ι) {i : ι} (hi : i ∈ L.parts) :
    (L.extent i).stop ≤ L.size := by
  have hpos := L.nonempty i hi
  have hfits := Extent.blocks_subset_range_iff.mp (L.inside i hi)
  omega

theorem Layout.before_or_before (L : Layout ι) {i j : ι} (hi : i ∈ L.parts) (hj : j ∈ L.parts)
    (hne : i ≠ j) : L.Before i j ∨ L.Before j i := by
  have hposi := L.nonempty i hi
  have hposj := L.nonempty j hj
  have hcases := Extent.disjoint_blocks_iff.mp (L.disjoint i hi j hj hne)
  unfold Layout.Before
  omega

/-- Of two parts, the one with the smaller start lies before the other. -/
theorem Layout.before_of_start_le (L : Layout ι) {i j : ι} (hi : i ∈ L.parts) (hj : j ∈ L.parts)
    (hne : i ≠ j) (hle : (L.extent i).start ≤ (L.extent j).start) : L.Before i j := by
  rcases L.before_or_before hi hj hne with hbefore | hafter
  · exact hbefore
  · have hpos := L.nonempty j hj
    unfold Layout.Before Extent.stop at hafter
    omega

/-- Any sublist of the parts can be put in the order in which it lies on the
volume: pairwise disjointness is enough for a linear order. -/
theorem Layout.exists_perm_pairwise_before (L : Layout ι) {chosen : List ι}
    (hchosen : chosen.Sublist L.parts) :
    ∃ order : List ι, order.Perm chosen ∧ order.Pairwise L.Before := by
  let le := fun i j : ι => decide ((L.extent i).start ≤ (L.extent j).start)
  have hperm : (chosen.mergeSort le).Perm chosen := List.mergeSort_perm chosen le
  have hsorted : (chosen.mergeSort le).Pairwise (fun i j => le i j) :=
    List.pairwise_mergeSort (by simp only [le, decide_eq_true_eq]; omega)
      (by simp only [le, Bool.or_eq_true, decide_eq_true_eq]; omega) chosen
  have hnodup : (chosen.mergeSort le).Nodup := hperm.nodup_iff.mpr (L.nodup.sublist hchosen)
  refine ⟨chosen.mergeSort le, hperm, ?_⟩
  refine (hsorted.and hnodup).imp_of_mem ?_
  rintro i j hi hj ⟨hle, hne⟩
  exact L.before_of_start_le (hchosen.subset (hperm.subset hi)) (hchosen.subset (hperm.subset hj)) hne
    (by simpa only [le, decide_eq_true_eq] using hle)

/-- The blocks that some part occupies. -/
def Layout.occupied (L : Layout ι) [DecidableEq ι] : Finset Nat :=
  L.parts.toFinset.biUnion fun i => (L.extent i).blocks

variable [DecidableEq ι]

theorem Layout.card_occupied (L : Layout ι) :
    L.occupied.card = (L.parts.map fun i => (L.extent i).len).sum := by
  unfold Layout.occupied
  rw [Finset.card_biUnion]
  · simp only [Extent.card_blocks]
    exact List.sum_toFinset _ L.nodup
  · intro i hi j hj hne
    exact L.disjoint i (List.mem_toFinset.mp hi) j (List.mem_toFinset.mp hj) hne

theorem Layout.occupied_subset (L : Layout ι) : L.occupied ⊆ Finset.range L.size := by
  intro b hb
  obtain ⟨i, hi, hmem⟩ := Finset.mem_biUnion.mp hb
  exact L.inside i (List.mem_toFinset.mp hi) hmem

/-- The parts together are no longer than the volume. -/
theorem Layout.sum_len_le_size (L : Layout ι) :
    (L.parts.map fun i => (L.extent i).len).sum ≤ L.size := by
  rw [← L.card_occupied]
  simpa using Finset.card_le_card L.occupied_subset

/-- Exact accounting: the blocks in no part are those that the lengths leave. -/
theorem Layout.card_free (L : Layout ι) :
    ((Finset.range L.size).filter fun b => ∀ i ∈ L.parts, b ∉ (L.extent i).blocks).card =
      L.size - (L.parts.map fun i => (L.extent i).len).sum := by
  have hfree : ((Finset.range L.size).filter fun b => ∀ i ∈ L.parts, b ∉ (L.extent i).blocks) =
      Finset.range L.size \ L.occupied := by
    ext b
    simp only [Layout.occupied, Finset.mem_filter, Finset.mem_sdiff, Finset.mem_biUnion,
      List.mem_toFinset, not_exists, not_and]
  rw [hfree, Finset.card_sdiff_of_subset L.occupied_subset, Finset.card_range, L.card_occupied]

end extents
