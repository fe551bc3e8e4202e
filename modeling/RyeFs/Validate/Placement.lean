import RyeFs.Lib.Packing
import RyeFs.Validate.Layout

open extents traced verdicts words
open ryefs.ryefs_valid_t

namespace ryefs

/-- The superblock with its regions moved to other places, their lengths as they were. -/
def superblock_t.placed (sb : superblock_t UInt64) (place : Mandatory → UInt64)
    (dedup_index_start : UInt64) : superblock_t UInt64 :=
  { sb with
    journal1_start := place .journal1
    journal2_start := place .journal2
    bitmap_start := place .bitmap
    inode_bitmap_start := place .inodeBitmap
    inode_table_start := place .inodeTable
    data_start := place .data
    dedup_index_start := dedup_index_start }

/-- The conditions on a superblock that do not say where its regions are. -/
structure superblock_t.Placeable (sb : superblock_t UInt64) : Prop where
  block_size : ∃ k, 9 ≤ k ∧ k ≤ 17 ∧ sb.block_size.toNat = 2 ^ k
  dedup : sb.HasDedup ↔ sb.dedup_index_blocks ≠ 0
  nonempty : ∀ m, (sb.mandatory m).len ≠ 0
  claimed_le : sb.claimed_blocks ≤ sb.block_count.toNat
  root_inode : 1 ≤ sb.root_inode.toNat ∧ sb.root_inode.toNat ≤ sb.inode_count.toNat

/-- The blocks in front of a region, when each lies behind the one before it in the order
of the superblock. -/
def superblock_t.packedOffset (sb : superblock_t UInt64) : Mandatory → Nat
  | .journal1 => 3
  | .journal2 => 3 + sb.journal1_blocks.toNat
  | .bitmap => 3 + sb.journal1_blocks.toNat + sb.journal2_blocks.toNat
  | .inodeBitmap =>
    3 + sb.journal1_blocks.toNat + sb.journal2_blocks.toNat + sb.bitmap_blocks.toNat
  | .inodeTable =>
    3 + sb.journal1_blocks.toNat + sb.journal2_blocks.toNat + sb.bitmap_blocks.toNat +
      sb.inode_bitmap_blocks.toNat
  | .data =>
    3 + sb.journal1_blocks.toNat + sb.journal2_blocks.toNat + sb.bitmap_blocks.toNat +
      sb.inode_bitmap_blocks.toNat + sb.inode_table_blocks.toNat

/-- The regions without a gap between them, the dedup index last. -/
def superblock_t.compacted (sb : superblock_t UInt64) : superblock_t UInt64 :=
  sb.placed (fun m => UInt64.ofNat (sb.packedOffset m))
    (if sb.HasDedup then UInt64.ofNat (sb.packedOffset .data + sb.data_blocks.toNat) else 0)

section

variable {sb : superblock_t UInt64} {place : Mandatory → UInt64} {dedup_index_start : UInt64}

theorem extent_placed_mandatory (m : Mandatory) :
    (sb.placed place dedup_index_start).extent (.mandatory m) =
      ⟨(place m).toNat, (sb.extent (.mandatory m)).len⟩ := by
  cases m <;> rfl

theorem len_extent_mandatory (m : Mandatory) :
    (sb.extent (.mandatory m)).len = (sb.mandatory m).len.toNat := by
  cases m <;> rfl

theorem nonempty_placed_iff (m : Mandatory) :
    ((sb.placed place dedup_index_start).extent (.mandatory m)).blocks.Nonempty ↔
      (sb.mandatory m).len ≠ 0 := by
  rw [extent_placed_mandatory, ← Finset.card_pos, Extent.card_blocks, len_extent_mandatory,
    Nat.pos_iff_ne_zero, ne_eq, toNat_eq_zero_iff]

/-- No place wraps, and the regions follow one another. -/
theorem map_extent_compacted (hclaimed : sb.claimed_blocks < 2 ^ 64) :
    sb.roles.map sb.compacted.extent =
      packed 0 (sb.roles.map fun role => (sb.extent role).len) := by
  have hplace {n : Nat} (hle : n ≤ sb.claimed_blocks) : (UInt64.ofNat n).toNat = n := by
    rw [UInt64.toNat_ofNat']
    omega
  have hoffset (m : Mandatory) : sb.packedOffset m ≤ sb.claimed_blocks := by
    unfold superblock_t.claimed_blocks
    cases m
    all_goals
      simp only [superblock_t.packedOffset]
      omega
  have hmandatory (m : Mandatory) : sb.compacted.extent (.mandatory m) =
      ⟨sb.packedOffset m, (sb.extent (.mandatory m)).len⟩ := by
    rw [superblock_t.compacted, extent_placed_mandatory, hplace (hoffset m)]
  have hnine (rest : List Nat) : packed 0 ((([Role.bootRecord, .primarySuperblock,
      .backupSuperblock] ++ Mandatory.all.map Role.mandatory).map
        fun role => (sb.extent role).len) ++ rest) =
      ([Role.bootRecord, .primarySuperblock, .backupSuperblock] ++
        Mandatory.all.map Role.mandatory).map sb.compacted.extent ++
          packed (sb.packedOffset .data + sb.data_blocks.toNat) rest := by
    simp only [Mandatory.all, List.map_cons, List.map_nil, List.cons_append, List.nil_append,
      hmandatory, packed, superblock_t.packedOffset]
    rfl
  unfold superblock_t.roles
  generalize [Role.bootRecord, .primarySuperblock, .backupSuperblock] ++
    Mandatory.all.map Role.mandatory = nine at hnine ⊢
  rw [List.map_append, List.map_append, hnine]
  congr 1
  by_cases hdedup : sb.HasDedup
  · have hlast : sb.packedOffset .data + sb.data_blocks.toNat ≤ sb.claimed_blocks := by
      unfold superblock_t.claimed_blocks
      simp only [superblock_t.packedOffset]
      omega
    have hstart : (sb.compacted.extent .dedupIndex).start =
        sb.packedOffset .data + sb.data_blocks.toNat := by
      change UInt64.toNat (if sb.HasDedup then _ else 0) = _
      rw [if_pos hdedup, hplace hlast]
    rw [if_pos hdedup]
    change [(⟨(sb.compacted.extent .dedupIndex).start, _⟩ : Extent)] = _
    rw [hstart]
    rfl
  · rw [if_neg hdedup]
    rfl

theorem superblock_t.Placeable.lawful_compacted (h : sb.Placeable) : sb.compacted.Lawful := by
  have hlt := sb.block_count.toNat_lt
  have hle := h.claimed_le
  have hpacked := @map_extent_compacted sb (by omega)
  have hsum := sb.sum_len_eq_claimed_blocks
  refine ⟨h.block_size, ?_, ?_, ?_, ?_, ?_, h.root_inode⟩
  · intro hdedup hzero
    exact h.dedup.mp hdedup (toNat_eq_zero_iff.mp hzero)
  · intro hclear
    have hclear : ¬ sb.HasDedup := hclear
    constructor
    · change UInt64.toNat (if sb.HasDedup then _ else 0) = 0
      rw [if_neg hclear]
      rfl
    · exact toNat_eq_zero_iff.mpr (not_not.mp fun hblocks => hclear (h.dedup.mpr hblocks))
  · exact fun m => (nonempty_placed_iff m).mpr (h.nonempty m)
  · intro r hr
    exact inside_of_packed hpacked (hsum.le.trans hle) hr
  · intro r hr s hs hne
    exact disjoint_of_packed hpacked hr hs hne

theorem superblock_t.Lawful.placeable (h : (sb.placed place dedup_index_start).Lawful) :
    sb.Placeable where
  block_size := h.block_size
  dedup := by
    constructor
    · exact fun hdedup hblocks => h.dedup_set hdedup (toNat_eq_zero_iff.mpr hblocks)
    · intro hblocks
      by_contra hclear
      exact hblocks (toNat_eq_zero_iff.mp (h.dedup_clear hclear).2)
  nonempty m := (nonempty_placed_iff m).mp (h.nonempty m)
  claimed_le := h.linearLayout.claimed_le
  root_inode := h.root_inode

end

/-- The validator accepts some placement of the regions exactly when together they are no
longer than the volume, and the fields that do not place them are in order. -/
theorem exists_accepted_placement_iff (sb : superblock_t UInt64) :
    (∃ place dedup_index_start,
      (ryefs_validate_layout (some (sb.placed place dedup_index_start))).value = RYEFS_VALID_OK) ↔
      sb.Placeable := by
  constructor
  · rintro ⟨place, dedup_index_start, hok⟩
    exact ((layout_ok_iff_lawful _).mp hok).placeable
  · intro h
    exact ⟨_, _, (layout_ok_iff_lawful sb.compacted).mpr h.lawful_compacted⟩

end ryefs
