import RyeFs.Lib.Extent

namespace extents

/-- Extents of the given lengths, each starting where the one before it stops. -/
def packed (start : Nat) : List Nat → List Extent
  | [] => []
  | len :: lens => ⟨start, len⟩ :: packed (start + len) lens

theorem bounds_of_mem_packed {start : Nat} {lens : List Nat} {e : Extent}
    (he : e ∈ packed start lens) : start ≤ e.start ∧ e.stop ≤ start + lens.sum := by
  induction lens generalizing start with
  | nil => cases he
  | cons len lens ih =>
    rw [List.sum_cons]
    cases he with
    | head => exact ⟨le_rfl, Nat.add_le_add_left (Nat.le_add_right len lens.sum) start⟩
    | tail _ hmem =>
      have hbounds := ih hmem
      omega

theorem pairwise_packed (start : Nat) (lens : List Nat) :
    (packed start lens).Pairwise fun a b => a.stop ≤ b.start := by
  induction lens generalizing start with
  | nil => exact List.Pairwise.nil
  | cons len lens ih =>
    refine List.pairwise_cons.mpr ⟨fun e he => ?_, ih (start + len)⟩
    exact (bounds_of_mem_packed he).1

variable {ι : Type} {parts : List ι} {extent : ι → Extent}

/-- Packed parts share no block. -/
theorem disjoint_of_packed {lens : List Nat} (hpacked : parts.map extent = packed 0 lens)
    {i j : ι} (hi : i ∈ parts) (hj : j ∈ parts) (hne : i ≠ j) :
    Disjoint (extent i).blocks (extent j).blocks := by
  have hsymm : Std.Symm fun i j => Disjoint (extent i).blocks (extent j).blocks :=
    ⟨fun _ _ h => h.symm⟩
  have hpairwise := pairwise_packed 0 lens
  rw [← hpacked, List.pairwise_map] at hpairwise
  have hdisjoint : parts.Pairwise fun i j => Disjoint (extent i).blocks (extent j).blocks :=
    hpairwise.imp fun hbefore =>
      Extent.disjoint_blocks_iff.mpr (Or.inr (Or.inr (Or.inl hbefore)))
  exact hdisjoint.forall hi hj hne

/-- They lie on every volume that is as large as their lengths together. -/
theorem inside_of_packed {lens : List Nat} (hpacked : parts.map extent = packed 0 lens)
    {size : Nat} (hsize : lens.sum ≤ size) {i : ι} (hi : i ∈ parts) :
    (extent i).blocks ⊆ Finset.range size := by
  have hmem : extent i ∈ packed 0 lens := hpacked ▸ List.mem_map_of_mem hi
  have hbounds := bounds_of_mem_packed hmem
  exact Extent.blocks_subset_range_iff.mpr (Or.inr (by omega))

end extents
