import RyeFs.Lib.Extent
import RyeFs.Lib.Words
import RyeFs.Validate.Funs

open extents traced words

namespace ryefs

/-- The regions that every volume must have. -/
inductive Mandatory where
  | journal1
  | journal2
  | bitmap
  | inodeBitmap
  | inodeTable
  | data
  deriving DecidableEq, Repr

/-- What a region of the volume is for. -/
inductive Role where
  | bootRecord
  | primarySuperblock
  | backupSuperblock
  | mandatory (m : Mandatory)
  | dedupIndex
  deriving DecidableEq, Repr

def Mandatory.all : List Mandatory :=
  [.journal1, .journal2, .bitmap, .inodeBitmap, .inodeTable, .data]

theorem Mandatory.mem_all (m : Mandatory) : m ∈ Mandatory.all := by
  cases m <;> decide

section

variable {u64 : Type}

/-- The feature flag of the dedup index is set. -/
def superblock_t.HasDedup (sb : superblock_t u64) : Prop := HasFlag sb.flags SB_FLAG_DEDUP

instance (sb : superblock_t u64) : Decidable sb.HasDedup :=
  inferInstanceAs (Decidable (HasFlag _ _))

def superblock_t.mandatory (sb : superblock_t u64) : Mandatory → region_t u64
  | .journal1 => ⟨sb.journal1_start, sb.journal1_blocks⟩
  | .journal2 => ⟨sb.journal2_start, sb.journal2_blocks⟩
  | .bitmap => ⟨sb.bitmap_start, sb.bitmap_blocks⟩
  | .inodeBitmap => ⟨sb.inode_bitmap_start, sb.inode_bitmap_blocks⟩
  | .inodeTable => ⟨sb.inode_table_start, sb.inode_table_blocks⟩
  | .data => ⟨sb.data_start, sb.data_blocks⟩

def superblock_t.region [OfNat u64 0] [OfNat u64 1] [OfNat u64 2] (sb : superblock_t u64) :
    Role → region_t u64
  | .bootRecord => ⟨0, 1⟩
  | .primarySuperblock => ⟨1, 1⟩
  | .backupSuperblock => ⟨2, 1⟩
  | .mandatory m => sb.mandatory m
  | .dedupIndex => ⟨sb.dedup_index_start, sb.dedup_index_blocks⟩

/-- The regions of the volume: nine, and the dedup index when its flag is set. -/
def superblock_t.roles (sb : superblock_t u64) : List Role :=
  [.bootRecord, .primarySuperblock, .backupSuperblock] ++ Mandatory.all.map .mandatory ++
    if sb.HasDedup then [.dedupIndex] else []

theorem superblock_t.mandatory_mem_roles (sb : superblock_t u64) (m : Mandatory) :
    .mandatory m ∈ sb.roles := by
  simp [superblock_t.roles, m.mem_all]

theorem superblock_t.nodup_roles (sb : superblock_t u64) : sb.roles.Nodup := by
  unfold superblock_t.roles
  by_cases hdedup : sb.HasDedup
  · rw [if_pos hdedup]
    decide
  · rw [if_neg hdedup]
    decide

/-- The array of the validator holds the region of each role once. -/
theorem layout_regions_eq_map [OfNat u64 0] [OfNat u64 1] [OfNat u64 2] (sb : superblock_t u64) :
    layout_regions sb (decide ((sb.flags &&& SB_FLAG_DEDUP) ≠ 0)) = sb.roles.map sb.region := by
  unfold layout_regions superblock_t.roles superblock_t.HasDedup
  by_cases hdedup : HasFlag sb.flags SB_FLAG_DEDUP
  · have hflag := and_ne_zero_iff_hasFlag.mpr hdedup
    simp only [hflag, hdedup, ne_eq, not_false_eq_true, decide_true, if_true]
    rfl
  · have hflag : ¬ (sb.flags &&& SB_FLAG_DEDUP ≠ 0) :=
      fun hne => hdedup (and_ne_zero_iff_hasFlag.mp hne)
    simp only [hflag, hdedup, decide_false, if_false, Bool.false_eq_true]
    rfl

/-- The entries 3 to 8 are the mandatory regions, whichever length the array has. -/
theorem any_zero_region_iff [OfNat u64 0] [OfNat u64 1] [OfNat u64 2] [DecidableEq u64]
    (sb : superblock_t u64) :
    any_zero_region (sb.roles.map sb.region) = true ↔ ∃ m, (sb.mandatory m).len = 0 := by
  have hslice : ((sb.roles.map sb.region).drop 3).take 6 = Mandatory.all.map sb.mandatory := rfl
  unfold any_zero_region
  rw [hslice]
  simp only [List.any_map, List.any_eq_true, Function.comp_apply, decide_eq_true_eq]
  constructor
  · rintro ⟨m, _, hlen⟩
    exact ⟨m, hlen⟩
  · rintro ⟨m, hlen⟩
    exact ⟨m, m.mem_all, hlen⟩

end

/-- The extent of a region given in exact numbers. -/
def region_t.extent (r : region_t Nat) : Extent := ⟨r.start, r.len⟩

/-- The blocks a role occupies according to the superblock, in exact numbers. -/
def superblock_t.extent (sb : superblock_t UInt64) (role : Role) : Extent :=
  (sb.unbounded.region role).extent

/-- In exact arithmetic the bounds test is containment in the volume. -/
theorem region_in_bounds_iff_subset (r : region_t Nat) (block_count : Nat) :
    (region_in_bounds r block_count).value = true ↔
      r.extent.blocks ⊆ Finset.range block_count := by
  rw [Extent.blocks_subset_range_iff]
  unfold region_in_bounds region_t.extent Extent.stop
  by_cases hempty : r.len = 0
  · simp [hempty]
  · by_cases hstart : r.start ≥ block_count
    · simp only [if_neg hempty, if_pos hstart, value_pure, Bool.false_eq_true, false_iff]
      omega
    · simp only [if_neg hempty, if_neg hstart, value_bind, value_ite, value_pure,
        Bool.if_false_left, Bool.and_true, Bool.not_eq_true', decide_eq_false_iff_not]
      rw [value_sub]
      omega

/-- In exact arithmetic the overlap test is a shared block. -/
theorem regions_overlap_iff_not_disjoint (a b : region_t Nat) :
    (regions_overlap a b).value = true ↔ ¬ Disjoint a.extent.blocks b.extent.blocks := by
  rw [Extent.disjoint_blocks_iff]
  unfold regions_overlap region_t.extent Extent.stop
  by_cases hempty : a.len = 0 ∨ b.len = 0
  · simp only [if_pos hempty, value_pure, Bool.false_eq_true, false_iff]
    omega
  · simp only [if_neg hempty, value_bind, value_ite, value_pure, Bool.if_false_right,
      Bool.and_eq_true, decide_eq_true_eq]
    rw [value_add, value_add]
    omega

/-- The double loop reaches every pair once. -/
theorem any_overlap_iff_not_pairwise (regions : List (region_t Nat)) :
    (any_overlap regions).value = true ↔
      ¬ regions.Pairwise fun a b => Disjoint a.extent.blocks b.extent.blocks := by
  induction regions with
  | nil => simp [any_overlap]
  | cons r rest ih =>
    have hinner : (rest.anyM (regions_overlap r)).value = true ↔
        ¬ ∀ s ∈ rest, Disjoint r.extent.blocks s.extent.blocks := by
      simp only [value_anyM, List.any_eq_true, regions_overlap_iff_not_disjoint]
      push Not
      rfl
    rw [List.pairwise_cons, not_and_or, ← hinner, ← ih]
    simp only [any_overlap, value_bind, value_ite, value_pure]
    cases (rest.anyM (regions_overlap r)).value <;> simp

end ryefs
