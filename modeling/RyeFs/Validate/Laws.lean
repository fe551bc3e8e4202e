import RyeFs.Lib.Verdict
import RyeFs.Validate.Wrap

open extents traced verdicts words
open ryefs.ryefs_valid_t

namespace ryefs

/-- What a refusal of the layout documents, in exact arithmetic and with regions
as sets of blocks. -/
def LayoutFault (sb : superblock_t UInt64) : ryefs_valid_t → Prop
  | RYEFS_ERR_BLOCK_SIZE => ¬ ∃ k, 9 ≤ k ∧ k ≤ 17 ∧ sb.block_size.toNat = 2 ^ k
  | RYEFS_ERR_DEDUP_REGION =>
    sb.HasDedup ∧ sb.dedup_index_blocks.toNat = 0 ∨
      ¬ sb.HasDedup ∧ (sb.dedup_index_start.toNat ≠ 0 ∨ sb.dedup_index_blocks.toNat ≠ 0)
  | RYEFS_ERR_ZERO_REGION => ∃ m, (sb.extent (.mandatory m)).blocks = ∅
  | RYEFS_ERR_REGION_BOUNDS =>
    ∃ r ∈ sb.roles, ¬ (sb.extent r).blocks ⊆ Finset.range sb.block_count.toNat
  | RYEFS_ERR_REGION_OVERLAP =>
    ∃ r ∈ sb.roles, ∃ s ∈ sb.roles, r ≠ s ∧ ¬ Disjoint (sb.extent r).blocks (sb.extent s).blocks
  | RYEFS_ERR_ROOT_INODE =>
    sb.root_inode.toNat = 0 ∨ sb.inode_count.toNat < sb.root_inode.toNat
  | _ => False

/-- The order in which the layout is checked. -/
def layout_order : List ryefs_valid_t :=
  [RYEFS_ERR_BLOCK_SIZE, RYEFS_ERR_DEDUP_REGION, RYEFS_ERR_ZERO_REGION, RYEFS_ERR_REGION_BOUNDS,
    RYEFS_ERR_REGION_OVERLAP, RYEFS_ERR_ROOT_INODE]

/-- What a refusal of a mount documents. Either pointer may be absent, and then
nothing is said about what it would point to. -/
def MountFault (sb : Option (superblock_t UInt64)) (req : Option ryefs_mount_req_t) :
    ryefs_valid_t → Prop
  | RYEFS_ERR_NULL_ARG => sb = none ∨ req = none
  | RYEFS_ERR_UNKNOWN_FEATURE =>
    ∃ s ∈ sb, ∃ i, s.flags.toNat.testBit i = true ∧ RYEFS_SB_FLAGS_KNOWN.toNat.testBit i = false
  | RYEFS_ERR_DEDUP_UNAWARE_RW =>
    ∃ s ∈ sb, ∃ q ∈ req, s.HasDedup ∧ q.writable ≠ 0 ∧ q.supports_dedup = 0
  | RYEFS_ERR_VOLUME_SUSPECT =>
    ∃ s ∈ sb, ∃ q ∈ req, HasFlag s.flags SB_FLAG_VOLUME_SUSPECT ∧ q.writable ≠ 0
  | RYEFS_ERR_DIRTY_READONLY =>
    ∃ s ∈ sb, ∃ q ∈ req, HasFlag s.flags SB_FLAG_DIRTY ∧ q.writable = 0
  | code => ∃ s ∈ sb, LayoutFault s code

/-- The order in which a mount is checked. -/
def refusal_order : List ryefs_valid_t :=
  RYEFS_ERR_NULL_ARG :: layout_order ++
    [RYEFS_ERR_UNKNOWN_FEATURE, RYEFS_ERR_DEDUP_UNAWARE_RW, RYEFS_ERR_VOLUME_SUSPECT,
      RYEFS_ERR_DIRTY_READONLY]

section

variable {sb : superblock_t UInt64} {req : ryefs_mount_req_t}

theorem not_mountFault_null_arg : ¬ MountFault (some sb) (some req) RYEFS_ERR_NULL_ARG := by
  simp [MountFault]

/-- On a superblock that is there, the layout codes mean for a mount what they
mean for the layout alone. -/
theorem mountFault_iff_layoutFault (req : Option ryefs_mount_req_t) :
    ∀ c ∈ layout_order, MountFault (some sb) req c ↔ LayoutFault sb c := by
  have hpresent (c : ryefs_valid_t) : (∃ s ∈ some sb, LayoutFault s c) ↔ LayoutFault sb c := by
    simp
  intro c hc
  simp only [layout_order, List.mem_cons, List.not_mem_nil, or_false] at hc
  rcases hc with rfl | rfl | rfl | rfl | rfl | rfl
  all_goals exact hpresent _

theorem mountFault_unknown_feature_iff :
    MountFault (some sb) (some req) RYEFS_ERR_UNKNOWN_FEATURE ↔
      HasFlag sb.flags (~~~RYEFS_SB_FLAGS_KNOWN) := by
  simp [MountFault, hasFlag_not_iff]

theorem mountFault_dedup_unaware_iff :
    MountFault (some sb) (some req) RYEFS_ERR_DEDUP_UNAWARE_RW ↔
      sb.HasDedup ∧ req.writable ≠ 0 ∧ req.supports_dedup = 0 := by
  simp [MountFault]

theorem mountFault_suspect_iff :
    MountFault (some sb) (some req) RYEFS_ERR_VOLUME_SUSPECT ↔
      HasFlag sb.flags SB_FLAG_VOLUME_SUSPECT ∧ req.writable ≠ 0 := by
  simp [MountFault]

theorem mountFault_dirty_iff :
    MountFault (some sb) (some req) RYEFS_ERR_DIRTY_READONLY ↔
      HasFlag sb.flags SB_FLAG_DIRTY ∧ req.writable = 0 := by
  simp [MountFault]

end

theorem ryefs_block_size_supported_iff (block_size : UInt32) :
    ryefs_block_size_supported block_size = true ↔
      ∃ k, 9 ≤ k ∧ k ≤ 17 ∧ block_size.toNat = 2 ^ k := by
  unfold ryefs_block_size_supported RYEFS_BLOCK_SIZE_VALID RYEFS_MIN_BLOCK_SIZE RYEFS_MAX_BLOCK_SIZE
  rw [Bool.and_eq_true, Bool.and_eq_true, decide_eq_true_eq, decide_eq_true_eq, beq_iff_eq,
    ge_iff_le, UInt32.le_iff_toNat_le, UInt32.le_iff_toNat_le]
  constructor
  · rintro ⟨⟨hmin, hmax⟩, hpower⟩
    have hne : block_size ≠ 0 := by
      rintro rfl
      exact absurd hmin (by decide)
    obtain ⟨k, hk⟩ := (and_sub_one_eq_zero_iff hne).mp hpower
    rw [hk] at hmin hmax
    refine ⟨k, ?_, ?_, hk⟩
    · exact (Nat.pow_le_pow_iff_right Nat.one_lt_two).mp (show 2 ^ 9 ≤ 2 ^ k from hmin)
    · exact (Nat.pow_le_pow_iff_right Nat.one_lt_two).mp (show 2 ^ k ≤ 2 ^ 17 from hmax)
  · rintro ⟨k, hmin, hmax, hk⟩
    have hlow : 2 ^ 9 ≤ 2 ^ k := Nat.pow_le_pow_right Nat.two_pos hmin
    have hhigh : 2 ^ k ≤ 2 ^ 17 := Nat.pow_le_pow_right Nat.two_pos hmax
    have hne : block_size ≠ 0 := by
      rintro rfl
      rw [← hk] at hlow
      exact absurd hlow (by decide)
    rw [hk]
    exact ⟨⟨hlow, hhigh⟩, (and_sub_one_eq_zero_iff hne).mpr ⟨k, hk⟩⟩

/-- The blocks of a region in exact numbers are those of its extent. -/
theorem superblock_t.map_region_unbounded (sb : superblock_t UInt64) :
    layout_regions sb.unbounded (decide ((sb.unbounded.flags &&& SB_FLAG_DEDUP) ≠ 0)) =
      sb.roles.map sb.unbounded.region :=
  layout_regions_eq_map sb.unbounded

theorem any_zero_region_iff_fault (sb : superblock_t UInt64) :
    any_zero_region (sb.roles.map sb.unbounded.region) = true ↔
      LayoutFault sb RYEFS_ERR_ZERO_REGION := by
  have hzero := any_zero_region_iff sb.unbounded
  have hempty (m : Mandatory) :
      (sb.extent (.mandatory m)).blocks = ∅ ↔ (sb.unbounded.mandatory m).len = 0 := by
    rw [← Finset.card_eq_zero, Extent.card_blocks]
    rfl
  simp only [LayoutFault, hempty]
  exact hzero

theorem any_out_of_bounds_iff_fault (sb : superblock_t UInt64) :
    (any_out_of_bounds (sb.roles.map sb.unbounded.region) sb.block_count.toNat).value = true ↔
      LayoutFault sb RYEFS_ERR_REGION_BOUNDS := by
  unfold any_out_of_bounds
  rw [value_anyM, List.any_map, List.any_eq_true]
  simp only [Function.comp_apply, value_bind, value_pure, Bool.not_eq_true', ← Bool.not_eq_true,
    region_in_bounds_iff_subset]
  rfl

theorem any_overlap_iff_fault (sb : superblock_t UInt64) :
    (any_overlap (sb.roles.map sb.unbounded.region)).value = true ↔
      LayoutFault sb RYEFS_ERR_REGION_OVERLAP := by
  have hsymm : Std.Symm fun r s => Disjoint (sb.extent r).blocks (sb.extent s).blocks :=
    ⟨fun _ _ h => h.symm⟩
  rw [any_overlap_iff_not_pairwise, List.pairwise_map, LayoutFault]
  constructor
  · intro hnot
    by_contra hnone
    push Not at hnone
    apply hnot
    exact sb.nodup_roles.pairwise_of_forall_ne fun r hr s hs hne => hnone r hr s hs hne
  · rintro ⟨r, hr, s, hs, hne, hmeet⟩ hpairwise
    exact hmeet (hpairwise.forall hr hs hne)

end ryefs
