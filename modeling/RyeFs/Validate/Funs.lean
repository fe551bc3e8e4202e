import RyeFs.Lib.Traced
import RyeFs.Structs

open traced

namespace ryefs

def RYEFS_BLOCK_SIZE_VALID (bs : UInt32) : Bool :=
  bs ≥ RYEFS_MIN_BLOCK_SIZE && bs ≤ RYEFS_MAX_BLOCK_SIZE && (bs &&& (bs - 1)) == 0

def ryefs_block_size_supported (block_size : UInt32) : Bool :=
  RYEFS_BLOCK_SIZE_VALID block_size

structure region_t (u64 : Type) where
  start : u64
  len : u64
  deriving DecidableEq, Repr

section

-- The `uint64_t` type of the validators: `UInt64` in the program, where sums
-- wrap around, and `Nat` for the same passes in exact arithmetic.
variable {u64 : Type} [Add u64] [Sub u64] [DecidableEq u64] [OfNat u64 0] [OfNat u64 1]
  [OfNat u64 2] [LE u64] [LT u64] [DecidableLE u64] [DecidableLT u64]

/-- The second sum is evaluated only when the first comparison succeeds. -/
def regions_overlap (a b : region_t u64) : Traced u64 Bool := do
  if a.len = 0 ∨ b.len = 0 then
    return false
  let b_end ← add b.start b.len
  if a.start < b_end then
    let a_end ← add a.start a.len
    return decide (b.start < a_end)
  else
    return false

def region_in_bounds (r : region_t u64) (block_count : u64) : Traced u64 Bool := do
  if r.len = 0 then
    return true
  if r.start ≥ block_count then
    return false
  let room ← sub block_count r.start
  if r.len > room then
    return false
  return true

/-- The first `n` entries of the array `regions`; `n` is 10 with the dedup index
and 9 without it. -/
def layout_regions (sb : superblock_t u64) (dedup_flag : Bool) : List (region_t u64) :=
  [⟨0, 1⟩,
   ⟨1, 1⟩,
   ⟨2, 1⟩,
   ⟨sb.journal1_start, sb.journal1_blocks⟩,
   ⟨sb.journal2_start, sb.journal2_blocks⟩,
   ⟨sb.bitmap_start, sb.bitmap_blocks⟩,
   ⟨sb.inode_bitmap_start, sb.inode_bitmap_blocks⟩,
   ⟨sb.inode_table_start, sb.inode_table_blocks⟩,
   ⟨sb.data_start, sb.data_blocks⟩] ++
  if dedup_flag then [⟨sb.dedup_index_start, sb.dedup_index_blocks⟩] else []

/-- The pass over `i` from 3 to 8. -/
def any_zero_region (regions : List (region_t u64)) : Bool :=
  ((regions.drop 3).take 6).any fun r => r.len = 0

/-- The pass over all `i`. -/
def any_out_of_bounds (regions : List (region_t u64)) (total : u64) : Traced u64 Bool :=
  regions.anyM fun r => do return !(← region_in_bounds r total)

/-- The double loop: the head is `regions[i]`, and the inner loop runs over the
entries after it. -/
def any_overlap : List (region_t u64) → Traced u64 Bool
  | [] => return false
  | r :: rest => do
    if ← rest.anyM (regions_overlap r) then
      return true
    any_overlap rest

def ryefs_validate_layout (sb : Option (superblock_t u64)) : Traced u64 ryefs_valid_t :=
  match sb with
  | none => return .RYEFS_ERR_NULL_ARG
  | some sb => do
    if !ryefs_block_size_supported sb.block_size then
      return .RYEFS_ERR_BLOCK_SIZE
    let total := sb.block_count
    let dedup_flag := (sb.flags &&& SB_FLAG_DEDUP) ≠ 0
    let dedup_present := sb.dedup_index_start ≠ 0 ∨ sb.dedup_index_blocks ≠ 0
    if dedup_flag ∧ sb.dedup_index_blocks = 0 then
      return .RYEFS_ERR_DEDUP_REGION
    if ¬ dedup_flag ∧ dedup_present then
      return .RYEFS_ERR_DEDUP_REGION
    let regions := layout_regions sb dedup_flag
    if any_zero_region regions then
      return .RYEFS_ERR_ZERO_REGION
    if ← any_out_of_bounds regions total then
      return .RYEFS_ERR_REGION_BOUNDS
    if ← any_overlap regions then
      return .RYEFS_ERR_REGION_OVERLAP
    if sb.root_inode = 0 ∨ sb.root_inode > sb.inode_count then
      return .RYEFS_ERR_ROOT_INODE
    return .RYEFS_VALID_OK

def ryefs_validate_features (flags : UInt32) (req : Option ryefs_mount_req_t) : ryefs_valid_t :=
  match req with
  | none => .RYEFS_ERR_NULL_ARG
  | some req =>
    if (flags &&& ~~~RYEFS_SB_FLAGS_KNOWN) ≠ 0 then
      .RYEFS_ERR_UNKNOWN_FEATURE
    else if (flags &&& SB_FLAG_DEDUP) ≠ 0 ∧ req.writable ≠ 0 ∧ req.supports_dedup = 0 then
      .RYEFS_ERR_DEDUP_UNAWARE_RW
    else
      .RYEFS_VALID_OK

def ryefs_validate_mount (sb : Option (superblock_t u64)) (req : Option ryefs_mount_req_t) :
    Traced u64 ryefs_valid_t :=
  match sb, req with
  | some sb, some req => do
    let rc ← ryefs_validate_layout (some sb)
    if rc ≠ .RYEFS_VALID_OK then
      return rc
    let rc := ryefs_validate_features sb.flags (some req)
    if rc ≠ .RYEFS_VALID_OK then
      return rc
    if (sb.flags &&& SB_FLAG_VOLUME_SUSPECT) ≠ 0 ∧ req.writable ≠ 0 then
      return .RYEFS_ERR_VOLUME_SUSPECT
    if (sb.flags &&& SB_FLAG_DIRTY) ≠ 0 ∧ req.writable = 0 then
      return .RYEFS_ERR_DIRTY_READONLY
    return .RYEFS_VALID_OK
  | _, _ => return .RYEFS_ERR_NULL_ARG

end

end ryefs
