import RyeFs.Validate.Refinement

open extents traced verdicts words
open ryefs.ryefs_valid_t

namespace ryefs

/-- The laws of a layout, in exact arithmetic and with regions as sets of blocks. -/
structure superblock_t.Lawful (sb : superblock_t UInt64) : Prop where
  block_size : ∃ k, 9 ≤ k ∧ k ≤ 17 ∧ sb.block_size.toNat = 2 ^ k
  dedup_set : sb.HasDedup → sb.dedup_index_blocks.toNat ≠ 0
  dedup_clear : ¬ sb.HasDedup → sb.dedup_index_start.toNat = 0 ∧ sb.dedup_index_blocks.toNat = 0
  nonempty : ∀ m, (sb.extent (.mandatory m)).blocks.Nonempty
  inside : ∀ r ∈ sb.roles, (sb.extent r).blocks ⊆ Finset.range sb.block_count.toNat
  disjoint : ∀ r ∈ sb.roles, ∀ s ∈ sb.roles, r ≠ s →
    Disjoint (sb.extent r).blocks (sb.extent s).blocks
  root_inode : 1 ≤ sb.root_inode.toNat ∧ sb.root_inode.toNat ≤ sb.inode_count.toNat

theorem no_layoutFault_iff_lawful (sb : superblock_t UInt64) :
    (∀ c ∈ layout_order, ¬ LayoutFault sb c) ↔ sb.Lawful := by
  simp only [layout_order, List.forall_mem_cons, List.not_mem_nil, LayoutFault, not_not]
  constructor
  · rintro ⟨hsize, hdedup, hzero, hbounds, hoverlap, hroot, _⟩
    push Not at hzero hbounds hoverlap hroot
    refine ⟨hsize, ?_, ?_, hzero, hbounds, hoverlap, ?_⟩
    · intro hflag hblocks
      exact hdedup (Or.inl ⟨hflag, hblocks⟩)
    · intro hflag
      by_contra hpresent
      exact hdedup (Or.inr ⟨hflag, by omega⟩)
    · omega
  · rintro ⟨hsize, hset, hclear, hnonempty, hinside, hdisjoint, hroot⟩
    refine ⟨hsize, ?_, ?_, ?_, ?_, ?_, ?_⟩
    · rintro (⟨hflag, hblocks⟩ | ⟨hflag, hpresent⟩)
      · exact hset hflag hblocks
      · have hboth := hclear hflag
        omega
    · rintro ⟨m, hempty⟩
      exact (hnonempty m).ne_empty hempty
    · rintro ⟨r, hr, hout⟩
      exact hout (hinside r hr)
    · rintro ⟨r, hr, s, hs, hne, hmeet⟩
      exact hmeet (hdisjoint r hr s hs hne)
    · omega
    · simp

theorem layout_ok_iff_lawful (sb : superblock_t UInt64) :
    (ryefs_validate_layout (some sb)).value = RYEFS_VALID_OK ↔ sb.Lawful := by
  rw [ryefs_validate_layout_eq_verdict, verdict_eq_ok_iff ok_notMem_layout_order,
    no_layoutFault_iff_lawful]

/-- The block numbers of a region, its end taken in unbounded naturals. -/
def region_t.blocks (r : region_t UInt64) : Set Nat :=
  {b | r.start.toNat ≤ b ∧ b < r.start.toNat + r.len.toNat}

theorem superblock_t.coe_blocks_extent (sb : superblock_t UInt64) (role : Role) :
    ((sb.extent role).blocks : Set Nat) = (sb.region role).blocks := by
  have hextent : sb.extent role = (sb.region role).unbounded.extent := by
    cases role with
    | mandatory m => cases m <;> rfl
    | _ => rfl
  ext b
  rw [hextent, Finset.mem_coe, Extent.mem_blocks]
  rfl

/-- The layout validator is sound and complete against exact arithmetic: it says
OK exactly when every law holds of the numbers themselves, no sum wrapping, with
each region read as the set of its blocks. -/
theorem ryefs_validate_layout_ok_iff (sb : superblock_t UInt64) :
    (ryefs_validate_layout (some sb)).value = RYEFS_VALID_OK ↔
      (∃ k, 9 ≤ k ∧ k ≤ 17 ∧ sb.block_size.toNat = 2 ^ k) ∧
      (sb.HasDedup → sb.dedup_index_blocks ≠ 0) ∧
      (¬ sb.HasDedup → sb.dedup_index_start = 0 ∧ sb.dedup_index_blocks = 0) ∧
      (∀ m : Mandatory, (sb.mandatory m).blocks.Nonempty) ∧
      (∀ r ∈ sb.roles, (sb.region r).blocks ⊆ {b | b < sb.block_count.toNat}) ∧
      (∀ r ∈ sb.roles, ∀ s ∈ sb.roles, r ≠ s →
        ¬ ∃ b, b ∈ (sb.region r).blocks ∧ b ∈ (sb.region s).blocks) ∧
      1 ≤ sb.root_inode.toNat ∧ sb.root_inode.toNat ≤ sb.inode_count.toNat := by
  have hnonempty (m : Mandatory) :
      (sb.extent (.mandatory m)).blocks.Nonempty ↔ (sb.mandatory m).blocks.Nonempty := by
    rw [← Finset.coe_nonempty, sb.coe_blocks_extent]
    rfl
  have hinside (r : Role) : (sb.extent r).blocks ⊆ Finset.range sb.block_count.toNat ↔
      (sb.region r).blocks ⊆ {b | b < sb.block_count.toNat} := by
    rw [← sb.coe_blocks_extent, ← Finset.coe_subset, Finset.coe_range]
    rfl
  have hdisjoint (r s : Role) : Disjoint (sb.extent r).blocks (sb.extent s).blocks ↔
      ¬ ∃ b, b ∈ (sb.region r).blocks ∧ b ∈ (sb.region s).blocks := by
    rw [← Finset.disjoint_coe, sb.coe_blocks_extent, sb.coe_blocks_extent, Set.disjoint_left]
    push Not
    rfl
  rw [layout_ok_iff_lawful]
  constructor
  · rintro ⟨hsize, hset, hclear, hfull, hin, hapart, hroot⟩
    refine ⟨hsize, ?_, ?_, ?_, ?_, ?_, hroot⟩
    · exact fun hflag hblocks => hset hflag (toNat_eq_zero_iff.mpr hblocks)
    · exact fun hflag => (hclear hflag).imp toNat_eq_zero_iff.mp toNat_eq_zero_iff.mp
    · exact fun m => (hnonempty m).mp (hfull m)
    · exact fun r hr => (hinside r).mp (hin r hr)
    · exact fun r hr s hs hne => (hdisjoint r s).mp (hapart r hr s hs hne)
  · rintro ⟨hsize, hset, hclear, hfull, hin, hapart, hroot⟩
    refine ⟨hsize, ?_, ?_, ?_, ?_, ?_, hroot⟩
    · exact fun hflag hblocks => hset hflag (toNat_eq_zero_iff.mp hblocks)
    · exact fun hflag => (hclear hflag).imp toNat_eq_zero_iff.mpr toNat_eq_zero_iff.mpr
    · exact fun m => (hnonempty m).mpr (hfull m)
    · exact fun r hr => (hinside r).mpr (hin r hr)
    · exact fun r hr s hs hne => (hdisjoint r s).mpr (hapart r hr s hs hne)

/-- A lawful superblock is a layout of its roles on the volume. -/
def superblock_t.Lawful.layout {sb : superblock_t UInt64} (h : sb.Lawful) : Layout Role where
  size := sb.block_count.toNat
  parts := sb.roles
  extent := sb.extent
  nodup := sb.nodup_roles
  nonempty := by
    intro r hr
    cases r with
    | mandatory m =>
      rw [← Extent.card_blocks, Finset.card_pos]
      exact h.nonempty m
    | dedupIndex =>
      have hflag : sb.HasDedup := by
        by_contra hclear
        simp [superblock_t.roles, hclear] at hr
      exact Nat.pos_of_ne_zero (h.dedup_set hflag)
    | _ => exact Nat.one_pos
  inside := h.inside
  disjoint := h.disjoint

/-- The blocks that the regions claim, counted with multiplicity and without
wrapping. -/
def superblock_t.claimed_blocks (sb : superblock_t UInt64) : Nat :=
  3 + sb.journal1_blocks.toNat + sb.journal2_blocks.toNat + sb.bitmap_blocks.toNat +
    sb.inode_bitmap_blocks.toNat + sb.inode_table_blocks.toNat + sb.data_blocks.toNat +
    if sb.HasDedup then sb.dedup_index_blocks.toNat else 0

theorem superblock_t.sum_len_eq_claimed_blocks (sb : superblock_t UInt64) :
    (sb.roles.map fun r => (sb.extent r).len).sum = sb.claimed_blocks := by
  unfold superblock_t.roles superblock_t.claimed_blocks
  rw [List.map_append, List.sum_append]
  have hnine : (([Role.bootRecord, .primarySuperblock, .backupSuperblock] ++
      Mandatory.all.map Role.mandatory).map fun r => (sb.extent r).len).sum =
      3 + sb.journal1_blocks.toNat + sb.journal2_blocks.toNat + sb.bitmap_blocks.toNat +
        sb.inode_bitmap_blocks.toNat + sb.inode_table_blocks.toNat + sb.data_blocks.toNat := by
    change 1 + (1 + (1 + (sb.journal1_blocks.toNat + (sb.journal2_blocks.toNat +
      (sb.bitmap_blocks.toNat + (sb.inode_bitmap_blocks.toNat + (sb.inode_table_blocks.toNat +
        (sb.data_blocks.toNat + 0)))))))) = _
    omega
  rw [hnine]
  by_cases hdedup : sb.HasDedup
  · rw [if_pos hdedup, if_pos hdedup]
    rfl
  · rw [if_neg hdedup, if_neg hdedup]
    rfl

/-- The regions lie one after the other from block 0 on, and the blocks they
leave are what their lengths leave of the block count. -/
structure superblock_t.LinearLayout (sb : superblock_t UInt64) : Prop where
  chain : ∃ order : List Role, order.Perm sb.roles ∧
    (order.map sb.extent).take 3 = [⟨0, 1⟩, ⟨1, 1⟩, ⟨2, 1⟩] ∧
    (order.map sb.extent).IsChain (fun a b => a.start + a.len ≤ b.start) ∧
    ∀ e ∈ (order.map sb.extent).getLast?, e.start + e.len ≤ sb.block_count.toNat
  claimed_le : sb.claimed_blocks ≤ sb.block_count.toNat
  free : ((Finset.range sb.block_count.toNat).filter
      fun b => ∀ r ∈ sb.roles, b ∉ (sb.extent r).blocks).card =
    sb.block_count.toNat - sb.claimed_blocks

/-- Every region other than the fixed blocks starts after them: it is not empty
and has to avoid blocks 0, 1 and 2. -/
theorem superblock_t.Lawful.three_le_start {sb : superblock_t UInt64} (h : sb.Lawful) {r : Role}
    (hr : r ∈ sb.roles) (hboot : r ≠ .bootRecord) (hprimary : r ≠ .primarySuperblock)
    (hbackup : r ≠ .backupSuperblock) : 3 ≤ (sb.extent r).start := by
  have hpos : 0 < (sb.extent r).len := h.layout.nonempty r hr
  have hfree (b : Role) (hb : b ∈ sb.roles) (hne : b ≠ r) (hlen : (sb.extent b).len = 1) :
      (sb.extent b).start + 1 ≤ (sb.extent r).start ∨
        (sb.extent r).start + (sb.extent r).len ≤ (sb.extent b).start := by
    have hbefore := h.layout.before_or_before hb hr hne
    simpa only [Layout.Before, Extent.stop, Lawful.layout, hlen] using hbefore
  have hzero : 0 + 1 ≤ (sb.extent r).start ∨ (sb.extent r).start + (sb.extent r).len ≤ 0 :=
    hfree .bootRecord (by simp [superblock_t.roles]) hboot.symm rfl
  have hone : 1 + 1 ≤ (sb.extent r).start ∨ (sb.extent r).start + (sb.extent r).len ≤ 1 :=
    hfree .primarySuperblock (by simp [superblock_t.roles]) hprimary.symm rfl
  have htwo : 2 + 1 ≤ (sb.extent r).start ∨ (sb.extent r).start + (sb.extent r).len ≤ 2 :=
    hfree .backupSuperblock (by simp [superblock_t.roles]) hbackup.symm rfl
  omega

theorem superblock_t.Lawful.exists_chain {sb : superblock_t UInt64} (h : sb.Lawful) :
    ∃ order : List Role, order.Perm sb.roles ∧
      (order.map sb.extent).take 3 = [⟨0, 1⟩, ⟨1, 1⟩, ⟨2, 1⟩] ∧
      order.Pairwise h.layout.Before := by
  have hroles : sb.roles =
      [.bootRecord, .primarySuperblock, .backupSuperblock] ++ sb.roles.drop 3 := rfl
  obtain ⟨tail, hperm, htail⟩ :=
    h.layout.exists_perm_pairwise_before (List.drop_sublist 3 sb.roles)
  refine ⟨[.bootRecord, .primarySuperblock, .backupSuperblock] ++ tail, ?_, rfl, ?_⟩
  · rw [hroles]
    exact hperm.append_left _
  · rw [List.pairwise_append]
    refine ⟨?_, htail, ?_⟩
    · simp [Layout.Before, Extent.stop, Lawful.layout, superblock_t.extent, superblock_t.region,
        region_t.extent]
    · intro b hb r hr
      have hmem : r ∈ sb.roles.drop 3 := hperm.subset hr
      have hnodup := sb.nodup_roles
      rw [hroles, List.nodup_append] at hnodup
      have hne (c : Role) (hc : c ∈ [Role.bootRecord, .primarySuperblock, .backupSuperblock]) :
          r ≠ c := (hnodup.2.2 c hc r hmem).symm
      have hstart := h.three_le_start (List.mem_of_mem_drop hmem) (hne _ (by simp))
        (hne _ (by simp)) (hne _ (by simp))
      have hend : (sb.extent b).stop ≤ 3 := by
        simp only [List.mem_cons, List.not_mem_nil, or_false] at hb
        rcases hb with rfl | rfl | rfl
        · exact show 0 + 1 ≤ 3 by omega
        · exact show 1 + 1 ≤ 3 by omega
        · exact show 2 + 1 ≤ 3 by omega
      exact hend.trans hstart

theorem superblock_t.Lawful.linearLayout {sb : superblock_t UInt64} (h : sb.Lawful) :
    sb.LinearLayout where
  chain := by
    obtain ⟨order, hperm, hfront, hpairwise⟩ := h.exists_chain
    refine ⟨order, hperm, hfront, ?_, ?_⟩
    · rw [List.isChain_map]
      exact hpairwise.isChain
    · intro e he
      obtain ⟨r, hr, rfl⟩ := List.mem_map.mp (List.mem_of_mem_getLast? he)
      exact h.layout.stop_le_size (hperm.subset hr)
  claimed_le := by
    rw [← sb.sum_len_eq_claimed_blocks]
    exact h.layout.sum_len_le_size
  free := by
    rw [← sb.sum_len_eq_claimed_blocks]
    exact h.layout.card_free

/-- An accepted layout is a linear chain of extents with exact space accounting. -/
theorem accepted_layout_is_linear (sb : superblock_t UInt64)
    (hok : (ryefs_validate_layout (some sb)).value = RYEFS_VALID_OK) : sb.LinearLayout :=
  ((layout_ok_iff_lawful sb).mp hok).linearLayout

/-- A volume of 1024 blocks of 4 KiB without free space between its regions. -/
def packedVolume : superblock_t UInt64 where
  magic := 0x53465952
  version_major := 1
  version_minor := 0
  block_size := 4096
  flags := SB_FLAG_JOURNAL_ENABLED ||| SB_FLAG_CHECKPOINT_JOURNAL
  mount_count := 0
  max_mount_count := 20
  block_count := 1024
  free_blocks := 991
  inode_count := 128
  free_inodes := 127
  journal1_start := 3
  journal1_blocks := 8
  journal2_start := 11
  journal2_blocks := 4
  bitmap_start := 15
  bitmap_blocks := 1
  inode_bitmap_start := 16
  inode_bitmap_blocks := 1
  inode_table_start := 17
  inode_table_blocks := 16
  dedup_index_start := 0
  dedup_index_blocks := 0
  data_start := 33
  data_blocks := 991
  root_inode := 1
  next_transaction_id := 1
  journal1_head := 0
  journal1_tail := 0
  journal1_epoch := 0
  journal2_head := 0
  journal2_tail := 0
  journal2_epoch := 0
  last_mount_time := 0
  last_write_time := 0
  last_check_time := 0
  uuid := Vector.replicate 16 0
  volume_label := Vector.replicate 32 0
  superblock_generation := 1
  checksum := 0
  _reserved := Vector.replicate 196 0

theorem packedVolume_is_linear : packedVolume.LinearLayout :=
  accepted_layout_is_linear packedVolume (by decide)

end ryefs
