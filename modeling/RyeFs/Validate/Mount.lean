import RyeFs.Validate.Rearrange

open extents traced verdicts words
open ryefs.ryefs_valid_t

namespace ryefs

/-- Every refusal names a real fault and the first one: the condition of the code
is met in exact arithmetic, and none that comes before it is. An overlap is
reported only for a block of two regions, and a region out of bounds only for one
with a block past the end of the volume. -/
theorem ryefs_validate_mount_names_first_fault (sb : Option (superblock_t UInt64))
    (req : Option ryefs_mount_req_t)
    (hne : (ryefs_validate_mount sb req).value ≠ RYEFS_VALID_OK) :
    (∃ before after, refusal_order = before ++ (ryefs_validate_mount sb req).value :: after ∧
      MountFault sb req (ryefs_validate_mount sb req).value ∧
      ∀ c ∈ before, ¬ MountFault sb req c) ∧
    ((ryefs_validate_mount sb req).value = RYEFS_ERR_REGION_OVERLAP →
      ∃ s ∈ sb, ∃ r₁ ∈ s.roles, ∃ r₂ ∈ s.roles, r₁ ≠ r₂ ∧
        ∃ b, b ∈ (s.region r₁).blocks ∧ b ∈ (s.region r₂).blocks) ∧
    ((ryefs_validate_mount sb req).value = RYEFS_ERR_REGION_BOUNDS →
      ∃ s ∈ sb, ∃ r ∈ s.roles, ∃ b ∈ (s.region r).blocks, s.block_count.toNat ≤ b) := by
  rw [ryefs_validate_mount_eq_verdict] at hne ⊢
  obtain ⟨before, after, horder, hfault, hfirst⟩ := verdict_first hne
  refine ⟨⟨before, after, horder, hfault, hfirst⟩, ?_, ?_⟩
  · intro hcode
    rw [hcode] at hfault
    obtain ⟨s, hs, r₁, hr₁, r₂, hr₂, hdistinct, hmeet⟩ := hfault
    obtain ⟨b, hb₁, hb₂⟩ := Finset.not_disjoint_iff.mp hmeet
    rw [← Finset.mem_coe, s.coe_blocks_extent] at hb₁ hb₂
    exact ⟨s, hs, r₁, hr₁, r₂, hr₂, hdistinct, b, hb₁, hb₂⟩
  · intro hcode
    rw [hcode] at hfault
    obtain ⟨s, hs, r, hr, hout⟩ := hfault
    obtain ⟨b, hb, hpast⟩ := Finset.not_subset.mp hout
    rw [← Finset.mem_coe, s.coe_blocks_extent] at hb
    rw [Finset.mem_range, not_lt] at hpast
    exact ⟨s, hs, r, hr, b, hb, hpast⟩

/-- The packed volume with a data region that starts one block early, over the
last block of the inode table. -/
def overlappingVolume : superblock_t UInt64 := { packedVolume with data_start := 32 }

theorem overlappingVolume_names_overlap :
    (∃ before after, refusal_order = before ++ RYEFS_ERR_REGION_OVERLAP :: after ∧
      MountFault (some overlappingVolume) (some ⟨1, 1⟩) RYEFS_ERR_REGION_OVERLAP ∧
      ∀ c ∈ before, ¬ MountFault (some overlappingVolume) (some ⟨1, 1⟩) c) ∧
    ∃ r₁ ∈ overlappingVolume.roles, ∃ r₂ ∈ overlappingVolume.roles, r₁ ≠ r₂ ∧
      ∃ b, b ∈ (overlappingVolume.region r₁).blocks ∧ b ∈ (overlappingVolume.region r₂).blocks := by
  have hcode : (ryefs_validate_mount (some overlappingVolume) (some ⟨1, 1⟩)).value =
      RYEFS_ERR_REGION_OVERLAP := by decide
  obtain ⟨hfirst, hoverlap, _⟩ :=
    ryefs_validate_mount_names_first_fault (some overlappingVolume) (some ⟨1, 1⟩) (by decide)
  obtain ⟨s, hs, hshared⟩ := hoverlap hcode
  cases hs
  rw [hcode] at hfirst
  exact ⟨hfirst, hshared⟩

/-- The two superblocks describe the same volume at different times: the fields
of the layout agree, and so do all flags but the mark of an unclean unmount. -/
structure SameVolume (a b : superblock_t UInt64) : Prop where
  block_size : b.block_size = a.block_size
  block_count : b.block_count = a.block_count
  inode_count : b.inode_count = a.inode_count
  root_inode : b.root_inode = a.root_inode
  mandatory : ∀ m, b.mandatory m = a.mandatory m
  dedup_index_start : b.dedup_index_start = a.dedup_index_start
  dedup_index_blocks : b.dedup_index_blocks = a.dedup_index_blocks
  flags : AgreeOutside SB_FLAG_DIRTY b.flags a.flags

section

variable {a b : superblock_t UInt64}

theorem SameVolume.rearranged (h : SameVolume a b) : Rearranged (Equiv.refl Mandatory) a b where
  block_size := h.block_size
  block_count := h.block_count
  inode_count := h.inode_count
  root_inode := h.root_inode
  dedup_flag := h.flags.hasFlag_iff (by decide)
  dedup_index_start := h.dedup_index_start
  dedup_index_blocks := h.dedup_index_blocks
  mandatory := h.mandatory

/-- The mark of an unclean unmount decides the last check and no other. -/
theorem SameVolume.mountFault_iff (h : SameVolume a b) (req : Option ryefs_mount_req_t)
    {c : ryefs_valid_t} (hc : c ≠ RYEFS_ERR_DIRTY_READONLY) :
    MountFault (some b) req c ↔ MountFault (some a) req c := by
  have hlayout (c : ryefs_valid_t) :
      (∃ s ∈ some b, LayoutFault s c) ↔ ∃ s ∈ some a, LayoutFault s c := by
    simpa using h.rearranged.layoutFault_iff c
  have hflag (mask : UInt32) (hmask : mask &&& SB_FLAG_DIRTY = 0) :
      HasFlag b.flags mask ↔ HasFlag a.flags mask := h.flags.hasFlag_iff hmask
  cases c with
  | RYEFS_ERR_NULL_ARG => simp [MountFault]
  | RYEFS_ERR_UNKNOWN_FEATURE =>
    simpa [MountFault, hasFlag_not_iff] using hflag (~~~RYEFS_SB_FLAGS_KNOWN) (by decide)
  | RYEFS_ERR_DEDUP_UNAWARE_RW =>
    simp [MountFault, superblock_t.HasDedup, hflag SB_FLAG_DEDUP (by decide)]
  | RYEFS_ERR_VOLUME_SUSPECT =>
    simp [MountFault, hflag SB_FLAG_VOLUME_SUSPECT (by decide)]
  | RYEFS_ERR_DIRTY_READONLY => exact absurd rfl hc
  | _ => exact hlayout _

/-- Mount verdicts are stable across the life of a volume. A read-write request
gets the same code whether or not the volume is marked dirty; a read-only one
gets the same code, or is accepted on the clean superblock and refused as dirty
on the other. -/
theorem ryefs_validate_mount_stable (h : SameVolume a b) (req : ryefs_mount_req_t) :
    (req.writable ≠ 0 → (ryefs_validate_mount (some b) (some req)).value =
      (ryefs_validate_mount (some a) (some req)).value) ∧
    (req.writable = 0 →
      (ryefs_validate_mount (some b) (some req)).value =
        (ryefs_validate_mount (some a) (some req)).value ∨
      ((ryefs_validate_mount (some b) (some req)).value = RYEFS_VALID_OK ∧
        (ryefs_validate_mount (some a) (some req)).value = RYEFS_ERR_DIRTY_READONLY ∧
        HasFlag a.flags SB_FLAG_DIRTY) ∨
      ((ryefs_validate_mount (some a) (some req)).value = RYEFS_VALID_OK ∧
        (ryefs_validate_mount (some b) (some req)).value = RYEFS_ERR_DIRTY_READONLY ∧
        HasFlag b.flags SB_FLAG_DIRTY)) := by
  simp only [ryefs_validate_mount_eq_verdict]
  constructor
  · intro hwritable
    apply verdict_congr
    intro c _
    by_cases hc : c = RYEFS_ERR_DIRTY_READONLY
    · rw [hc, mountFault_dirty_iff, mountFault_dirty_iff]
      exact iff_of_false (fun hro => hwritable hro.2) (fun hro => hwritable hro.2)
    · exact h.mountFault_iff (some req) hc
  · intro hreadonly
    have hinit : ∀ c ∈ refusal_order.dropLast,
        MountFault (some b) (some req) c ↔ MountFault (some a) (some req) c := by
      intro c hc
      apply h.mountFault_iff
      rintro rfl
      exact absurd hc (by decide)
    have hok : RYEFS_VALID_OK ∉ refusal_order.dropLast := by decide
    have hcases := verdict_append_singleton_congr (c := RYEFS_ERR_DIRTY_READONLY) hok hinit
    rw [mountFault_dirty_iff, mountFault_dirty_iff] at hcases
    rcases hcases with heq | ⟨hok, hcode, hmarked, _⟩ | ⟨hok, hcode, hmarked, _⟩
    · exact Or.inl heq
    · exact Or.inr (Or.inl ⟨hok, hcode, hmarked⟩)
    · exact Or.inr (Or.inr ⟨hok, hcode, hmarked⟩)

end

/-- The packed volume after it was mounted and the machine crashed. -/
def crashedVolume : superblock_t UInt64 :=
  { packedVolume with
    flags := packedVolume.flags ||| SB_FLAG_DIRTY
    mount_count := 1
    journal1_head := 4096
    superblock_generation := 2 }

theorem crashedVolume_mounts_as_before :
    (ryefs_validate_mount (some crashedVolume) (some ⟨1, 0⟩)).value =
      (ryefs_validate_mount (some packedVolume) (some ⟨1, 0⟩)).value := by
  have hsame : SameVolume packedVolume crashedVolume :=
    ⟨rfl, rfl, rfl, rfl, fun _ => rfl, rfl, rfl, by decide⟩
  exact (ryefs_validate_mount_stable hsame ⟨1, 0⟩).1 (by decide)

end ryefs
