import Mathlib.Init

namespace ryefs

/-- Size of an inode record in bytes. -/
def INODE_SIZE : Nat := 512

def RYEFS_MIN_BLOCK_SIZE : UInt32 := 512
def RYEFS_MAX_BLOCK_SIZE : UInt32 := 131072

def SB_FLAG_JOURNAL_ENABLED : UInt32 := (1 : UInt32) <<< 0
def SB_FLAG_CHECKPOINT_JOURNAL : UInt32 := (1 : UInt32) <<< 1
def SB_FLAG_DIRTY : UInt32 := (1 : UInt32) <<< 2
def SB_FLAG_ERRORS_READONLY : UInt32 := (1 : UInt32) <<< 3
def SB_FLAG_UNIX_PERMS : UInt32 := (1 : UInt32) <<< 4
def SB_FLAG_SPARSE : UInt32 := (1 : UInt32) <<< 6
def SB_FLAG_DEDUP : UInt32 := (1 : UInt32) <<< 7
def SB_FLAG_VOLUME_SUSPECT : UInt32 := (1 : UInt32) <<< 8

/-- The feature bits this build understands. Bit 5 and the bits from 9 on are
reserved. -/
def RYEFS_SB_FLAGS_KNOWN : UInt32 :=
  SB_FLAG_JOURNAL_ENABLED ||| SB_FLAG_CHECKPOINT_JOURNAL |||
    SB_FLAG_DIRTY ||| SB_FLAG_ERRORS_READONLY ||| SB_FLAG_UNIX_PERMS |||
    SB_FLAG_SPARSE ||| SB_FLAG_DEDUP ||| SB_FLAG_VOLUME_SUSPECT

/-- The superblock record. `u64` is the type of its `uint64_t` fields: the
program has `UInt64` there, and `Nat` gives the same record in exact numbers. -/
structure superblock_t (u64 : Type) where
  magic : UInt32
  version_major : UInt16
  version_minor : UInt16
  block_size : UInt32
  flags : UInt32
  mount_count : UInt32
  max_mount_count : UInt32
  block_count : u64
  free_blocks : u64
  inode_count : u64
  free_inodes : u64
  journal1_start : u64
  journal1_blocks : u64
  journal2_start : u64
  journal2_blocks : u64
  bitmap_start : u64
  bitmap_blocks : u64
  inode_bitmap_start : u64
  inode_bitmap_blocks : u64
  inode_table_start : u64
  inode_table_blocks : u64
  dedup_index_start : u64
  dedup_index_blocks : u64
  data_start : u64
  data_blocks : u64
  root_inode : u64
  next_transaction_id : u64
  journal1_head : u64
  journal1_tail : u64
  journal1_epoch : u64
  journal2_head : u64
  journal2_tail : u64
  journal2_epoch : u64
  last_mount_time : u64
  last_write_time : u64
  last_check_time : u64
  uuid : Vector UInt8 16
  volume_label : Vector UInt8 32
  superblock_generation : u64
  checksum : UInt32
  _reserved : Vector UInt8 196

/-- The superblock with every `uint64_t` field read as an unbounded natural. -/
def superblock_t.unbounded (sb : superblock_t UInt64) : superblock_t Nat where
  magic := sb.magic
  version_major := sb.version_major
  version_minor := sb.version_minor
  block_size := sb.block_size
  flags := sb.flags
  mount_count := sb.mount_count
  max_mount_count := sb.max_mount_count
  block_count := sb.block_count.toNat
  free_blocks := sb.free_blocks.toNat
  inode_count := sb.inode_count.toNat
  free_inodes := sb.free_inodes.toNat
  journal1_start := sb.journal1_start.toNat
  journal1_blocks := sb.journal1_blocks.toNat
  journal2_start := sb.journal2_start.toNat
  journal2_blocks := sb.journal2_blocks.toNat
  bitmap_start := sb.bitmap_start.toNat
  bitmap_blocks := sb.bitmap_blocks.toNat
  inode_bitmap_start := sb.inode_bitmap_start.toNat
  inode_bitmap_blocks := sb.inode_bitmap_blocks.toNat
  inode_table_start := sb.inode_table_start.toNat
  inode_table_blocks := sb.inode_table_blocks.toNat
  dedup_index_start := sb.dedup_index_start.toNat
  dedup_index_blocks := sb.dedup_index_blocks.toNat
  data_start := sb.data_start.toNat
  data_blocks := sb.data_blocks.toNat
  root_inode := sb.root_inode.toNat
  next_transaction_id := sb.next_transaction_id.toNat
  journal1_head := sb.journal1_head.toNat
  journal1_tail := sb.journal1_tail.toNat
  journal1_epoch := sb.journal1_epoch.toNat
  journal2_head := sb.journal2_head.toNat
  journal2_tail := sb.journal2_tail.toNat
  journal2_epoch := sb.journal2_epoch.toNat
  last_mount_time := sb.last_mount_time.toNat
  last_write_time := sb.last_write_time.toNat
  last_check_time := sb.last_check_time.toNat
  uuid := sb.uuid
  volume_label := sb.volume_label
  superblock_generation := sb.superblock_generation.toNat
  checksum := sb.checksum
  _reserved := sb._reserved

/-- The mount a caller asks for. Both fields are C truth values. -/
structure ryefs_mount_req_t where
  writable : Int32
  supports_dedup : Int32
  deriving DecidableEq, Repr

/-- The answers of the validators. -/
inductive ryefs_valid_t where
  | RYEFS_VALID_OK
  | RYEFS_ERR_NULL_ARG
  | RYEFS_ERR_BLOCK_SIZE
  | RYEFS_ERR_ZERO_REGION
  | RYEFS_ERR_REGION_BOUNDS
  | RYEFS_ERR_REGION_OVERLAP
  | RYEFS_ERR_DEDUP_REGION
  | RYEFS_ERR_ROOT_INODE
  | RYEFS_ERR_UNKNOWN_FEATURE
  | RYEFS_ERR_DEDUP_UNAWARE_RW
  | RYEFS_ERR_VOLUME_SUSPECT
  | RYEFS_ERR_DIRTY_READONLY
  deriving DecidableEq, Repr

end ryefs
