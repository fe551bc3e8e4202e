import RyeFs.Validate.Layout

open traced words
open ryefs.ryefs_valid_t

namespace ryefs

/-- The metadata regions are large enough for what the superblock says they
index: a record for each inode, a bit for each inode and a bit for each data
block, in exact arithmetic. -/
structure superblock_t.Capacious (sb : superblock_t UInt64) : Prop where
  inode_table : sb.inode_count.toNat * INODE_SIZE ≤
    sb.inode_table_blocks.toNat * sb.block_size.toNat
  inode_bitmap : sb.inode_count.toNat ≤
    8 * sb.inode_bitmap_blocks.toNat * sb.block_size.toNat
  bitmap : sb.data_blocks.toNat ≤ 8 * sb.bitmap_blocks.toNat * sb.block_size.toNat

/-- Comparisons of block numbers, on machine words and without a large product: the
block of the inode table that holds the record of the last inode, the block of the
inode bitmap that holds its bit, and the block of the allocation bitmap that holds the
bit of the last data block are each still inside their region. -/
def superblock_t.lasts_indexed (sb : superblock_t UInt64) : Bool :=
  let block_size := sb.block_size.toUInt64
  (sb.inode_count - 1) / (block_size / UInt64.ofNat INODE_SIZE) < sb.inode_table_blocks &&
    (sb.inode_count - 1) / (8 * block_size) < sb.inode_bitmap_blocks &&
    (sb.data_blocks - 1) / (8 * block_size) < sb.bitmap_blocks

section

variable {sb : superblock_t UInt64}

/-- A supported block holds a whole number of inode records. -/
theorem superblock_t.Lawful.exists_records (h : sb.Lawful) :
    ∃ n, 0 < n ∧ sb.block_size.toNat = INODE_SIZE * n := by
  obtain ⟨k, hmin, _, hsize⟩ := h.block_size
  obtain ⟨j, rfl⟩ := Nat.exists_eq_add_of_le hmin
  refine ⟨2 ^ j, Nat.two_pow_pos j, ?_⟩
  rw [hsize, Nat.pow_add]
  rfl

theorem superblock_t.Lawful.record_indexed_iff (h : sb.Lawful) {count blocks : UInt64}
    (hcount : count ≠ 0) :
    count.toNat * INODE_SIZE ≤ blocks.toNat * sb.block_size.toNat ↔
      (count - 1) / (sb.block_size.toUInt64 / UInt64.ofNat INODE_SIZE) < blocks := by
  obtain ⟨n, hpos, hsize⟩ := h.exists_records
  have hper_block : (sb.block_size.toUInt64 / UInt64.ofNat INODE_SIZE).toNat = n := by
    rw [UInt64.toNat_div, UInt32.toNat_toUInt64, hsize]
    exact Nat.mul_div_cancel_left n (by decide)
  have hne : sb.block_size.toUInt64 / UInt64.ofNat INODE_SIZE ≠ 0 := by
    rw [ne_eq, ← toNat_eq_zero_iff, hper_block]
    omega
  rw [pred_div_lt_iff hcount hne, hper_block, hsize, Nat.mul_left_comm, Nat.mul_comm INODE_SIZE]
  exact Nat.mul_le_mul_right_iff (by decide)

theorem superblock_t.Lawful.bit_indexed_iff (h : sb.Lawful) {count blocks : UInt64}
    (hcount : count ≠ 0) :
    count.toNat ≤ 8 * blocks.toNat * sb.block_size.toNat ↔
      (count - 1) / (8 * sb.block_size.toUInt64) < blocks := by
  obtain ⟨n, hpos, hsize⟩ := h.exists_records
  have hlt := sb.block_size.toNat_lt
  have hbits : (8 * sb.block_size.toUInt64).toNat = 8 * sb.block_size.toNat := by
    rw [UInt64.toNat_mul, UInt32.toNat_toUInt64]
    exact Nat.mod_eq_of_lt (by simp only [UInt64.reduceToNat]; omega)
  have hne : 8 * sb.block_size.toUInt64 ≠ 0 := by
    rw [ne_eq, ← toNat_eq_zero_iff, hbits, hsize]
    unfold INODE_SIZE
    omega
  rw [pred_div_lt_iff hcount hne, hbits, Nat.mul_comm 8 blocks.toNat, Nat.mul_assoc]

theorem superblock_t.Lawful.capacious_iff (h : sb.Lawful) :
    sb.Capacious ↔ sb.lasts_indexed = true := by
  have hinodes : sb.inode_count ≠ 0 := by
    have hroot := h.root_inode
    rw [ne_eq, ← toNat_eq_zero_iff]
    omega
  have hdata : sb.data_blocks ≠ 0 := by
    have hlen : 0 < sb.data_blocks.toNat :=
      h.layout.nonempty (.mandatory .data) (sb.mandatory_mem_roles .data)
    rw [ne_eq, ← toNat_eq_zero_iff]
    omega
  unfold superblock_t.lasts_indexed
  rw [Bool.and_eq_true, Bool.and_eq_true, decide_eq_true_eq, decide_eq_true_eq, decide_eq_true_eq,
    ← h.record_indexed_iff hinodes, ← h.bit_indexed_iff hinodes, ← h.bit_indexed_iff hdata]
  constructor
  · rintro ⟨hinode_table, hinode_bitmap, hbitmap⟩
    exact ⟨⟨hinode_table, hinode_bitmap⟩, hbitmap⟩
  · rintro ⟨⟨hinode_table, hinode_bitmap⟩, hbitmap⟩
    exact ⟨hinode_table, hinode_bitmap, hbitmap⟩

end

/-- The layout validator guarantees the capacities exactly on the superblocks
that it refuses for another law and on those whose last inode and last data
block are indexed: it has no check of its own for them. -/
theorem ryefs_validate_layout_capacious_iff (sb : superblock_t UInt64) :
    ((ryefs_validate_layout (some sb)).value = RYEFS_VALID_OK → sb.Capacious) ↔
      (sb.Lawful → sb.lasts_indexed = true) := by
  rw [layout_ok_iff_lawful]
  exact forall_congr' fun h => h.capacious_iff

/-- A volume of 100000 blocks of 512 bytes that names 200000 inodes, the last of
them its root, over an inode table of 16 blocks. -/
def overfullVolume : superblock_t UInt64 :=
  { packedVolume with
    block_size := 512
    block_count := 100000
    data_blocks := 99967
    inode_count := 200000
    root_inode := 200000 }

/-- It is accepted although its root inode has no record inside the inode table,
most inodes have no bit, and most data blocks have none. -/
theorem overfullVolume_accepted :
    (ryefs_validate_layout (some overfullVolume)).value = RYEFS_VALID_OK ∧
      ¬ overfullVolume.Capacious ∧
      overfullVolume.inode_table_blocks.toNat * overfullVolume.block_size.toNat <
        overfullVolume.root_inode.toNat * INODE_SIZE ∧
      8 * overfullVolume.inode_bitmap_blocks.toNat * overfullVolume.block_size.toNat <
        overfullVolume.inode_count.toNat ∧
      8 * overfullVolume.bitmap_blocks.toNat * overfullVolume.block_size.toNat <
        overfullVolume.data_blocks.toNat := by
  refine ⟨by decide, ?_, by decide, by decide, by decide⟩
  intro h
  exact absurd h.inode_table (by decide)

end ryefs
