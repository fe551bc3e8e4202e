import RyeFs.Validate.Layout

open extents traced verdicts words
open ryefs.ryefs_valid_t

namespace ryefs

/-- The superblock of the volume after its size was set to `total` blocks. -/
def superblock_t.resized (sb : superblock_t UInt64) (total : UInt64) : superblock_t UInt64 :=
  { sb with block_count := total }

section

variable {sb : superblock_t UInt64} {total : UInt64}

/-- The size of the volume decides the check of the bounds and no other. -/
theorem layoutFault_resized_iff {c : ryefs_valid_t} (hc : c ≠ RYEFS_ERR_REGION_BOUNDS) :
    LayoutFault (sb.resized total) c ↔ LayoutFault sb c := by
  cases c with
  | RYEFS_ERR_REGION_BOUNDS => exact absurd rfl hc
  | _ => exact Iff.rfl

theorem mountFault_resized_iff (req : Option ryefs_mount_req_t) {c : ryefs_valid_t}
    (hc : c ≠ RYEFS_ERR_REGION_BOUNDS) :
    MountFault (some (sb.resized total)) req c ↔ MountFault (some sb) req c := by
  have hlayout (c : ryefs_valid_t) (hc : c ≠ RYEFS_ERR_REGION_BOUNDS) :
      (∃ s ∈ some (sb.resized total), LayoutFault s c) ↔ ∃ s ∈ some sb, LayoutFault s c := by
    simpa using layoutFault_resized_iff hc
  cases c with
  | RYEFS_ERR_NULL_ARG => simp [MountFault]
  | RYEFS_ERR_UNKNOWN_FEATURE => simp [MountFault, superblock_t.resized]
  | RYEFS_ERR_DEDUP_UNAWARE_RW => simp [MountFault, superblock_t.resized, superblock_t.HasDedup]
  | RYEFS_ERR_VOLUME_SUSPECT => simp [MountFault, superblock_t.resized]
  | RYEFS_ERR_DIRTY_READONLY => simp [MountFault, superblock_t.resized]
  | _ => exact hlayout _ hc

/-- The regions of a lawful volume fit into the resized one if they end within it. -/
theorem superblock_t.Lawful.bounds_resized_iff (h : sb.Lawful) :
    LayoutFault (sb.resized total) RYEFS_ERR_REGION_BOUNDS ↔
      ¬ ∀ r ∈ sb.roles, (sb.extent r).stop ≤ total.toNat := by
  have hfits (r : Role) (hr : r ∈ sb.roles) :
      (sb.extent r).blocks ⊆ Finset.range total.toNat ↔ (sb.extent r).stop ≤ total.toNat := by
    have hlen : (sb.extent r).len ≠ 0 := (h.layout.nonempty r hr).ne'
    rw [Extent.blocks_subset_range_iff]
    exact or_iff_right hlen
  change (∃ r ∈ sb.roles, ¬ (sb.extent r).blocks ⊆ Finset.range total.toNat) ↔ _
  push Not
  constructor
  · rintro ⟨r, hr, hout⟩
    exact ⟨r, hr, Nat.lt_of_not_le fun hle => hout ((hfits r hr).mpr hle)⟩
  · rintro ⟨r, hr, hlt⟩
    exact ⟨r, hr, fun hin => Nat.not_le.mpr hlt ((hfits r hr).mp hin)⟩

end

/-- A volume that mounts still does after it was resized, unless a region lost a block,
and then that is what the refusal says. -/
theorem ryefs_validate_mount_resized (sb : superblock_t UInt64) (req : ryefs_mount_req_t)
    (total : UInt64) (hok : (ryefs_validate_mount (some sb) (some req)).value = RYEFS_VALID_OK) :
    (ryefs_validate_mount (some (sb.resized total)) (some req)).value =
      if ∀ r ∈ sb.roles, (sb.extent r).stop ≤ total.toNat then RYEFS_VALID_OK
      else RYEFS_ERR_REGION_BOUNDS := by
  classical
  rw [ryefs_validate_mount_eq_verdict, verdict_eq_ok_iff ok_notMem_refusal_order] at hok
  have hsub : ∀ c ∈ layout_order, c ∈ refusal_order := by decide
  have hlawful : sb.Lawful := (no_layoutFault_iff_lawful sb).mp fun c hc hfault =>
    hok c (hsub c hc) ((mountFault_iff_layoutFault (some req) c hc).mpr hfault)
  have hothers : ∀ c ∈ refusal_order, c ≠ RYEFS_ERR_REGION_BOUNDS →
      ¬ MountFault (some (sb.resized total)) (some req) c := fun c hc hne hfault =>
    hok c hc ((mountFault_resized_iff (some req) hne).mp hfault)
  have hbounds : MountFault (some (sb.resized total)) (some req) RYEFS_ERR_REGION_BOUNDS ↔
      ¬ ∀ r ∈ sb.roles, (sb.extent r).stop ≤ total.toNat := by
    rw [mountFault_iff_layoutFault (some req) _ (by decide), hlawful.bounds_resized_iff]
  rw [ryefs_validate_mount_eq_verdict, verdict_of_forall_ne ok_notMem_refusal_order (by decide)
    hothers]
  by_cases hfits : ∀ r ∈ sb.roles, (sb.extent r).stop ≤ total.toNat
  · rw [if_pos hfits, if_neg fun hfault => hbounds.mp hfault hfits]
  · rw [if_neg hfits, if_pos (hbounds.mpr hfits)]

/-- The packed volume, one block short. -/
theorem packedVolume_resized :
    (ryefs_validate_mount (some (packedVolume.resized 1023)) (some ⟨1, 1⟩)).value =
      RYEFS_ERR_REGION_BOUNDS := by
  rw [ryefs_validate_mount_resized packedVolume ⟨1, 1⟩ 1023 (by decide)]
  decide

end ryefs
