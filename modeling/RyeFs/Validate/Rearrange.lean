import Mathlib.Logic.Equiv.Basic
import RyeFs.Validate.Layout

open extents traced verdicts words
open ryefs.ryefs_valid_t

namespace ryefs

theorem superblock_t.mem_roles_iff {u64 : Type} (sb : superblock_t u64) (r : Role) :
    r ∈ sb.roles ↔ (r = .dedupIndex → sb.HasDedup) := by
  by_cases hdedup : sb.HasDedup
  · cases r with
    | mandatory m => simp [superblock_t.roles, m.mem_all]
    | _ => simp [superblock_t.roles, hdedup]
  · cases r with
    | mandatory m => simp [superblock_t.roles, m.mem_all]
    | _ => simp [superblock_t.roles, hdedup]

/-- A permutation of the mandatory regions, with the other roles in place. -/
def Role.permute (e : Equiv.Perm Mandatory) : Equiv.Perm Role where
  toFun
    | .mandatory m => .mandatory (e m)
    | r => r
  invFun
    | .mandatory m => .mandatory (e.symm m)
    | r => r
  left_inv r := by cases r <;> simp
  right_inv r := by cases r <;> simp

theorem Role.permute_eq_dedupIndex_iff (e : Equiv.Perm Mandatory) (r : Role) :
    Role.permute e r = .dedupIndex ↔ r = .dedupIndex := by
  cases r <;> simp [Role.permute]

/-- The superblock `b` describes the volume of `a` with its mandatory regions in
the roles that `e` gives them. Nothing is said about the fields that do not
describe the layout, nor about flags other than that of the dedup index. -/
structure Rearranged (e : Equiv.Perm Mandatory) (a b : superblock_t UInt64) : Prop where
  block_size : b.block_size = a.block_size
  block_count : b.block_count = a.block_count
  inode_count : b.inode_count = a.inode_count
  root_inode : b.root_inode = a.root_inode
  dedup_flag : b.HasDedup ↔ a.HasDedup
  dedup_index_start : b.dedup_index_start = a.dedup_index_start
  dedup_index_blocks : b.dedup_index_blocks = a.dedup_index_blocks
  mandatory : ∀ m, b.mandatory m = a.mandatory (e m)

section

variable {e : Equiv.Perm Mandatory} {a b : superblock_t UInt64}

theorem Rearranged.extent (h : Rearranged e a b) (r : Role) :
    b.extent r = a.extent (Role.permute e r) := by
  have hextent (sb : superblock_t UInt64) (m : Mandatory) :
      sb.extent (.mandatory m) = (sb.mandatory m).unbounded.extent := by
    cases m <;> rfl
  cases r with
  | mandatory m =>
    change b.extent (.mandatory m) = a.extent (.mandatory (e m))
    rw [hextent, hextent, h.mandatory]
  | dedupIndex =>
    change Extent.mk b.dedup_index_start.toNat b.dedup_index_blocks.toNat =
      Extent.mk a.dedup_index_start.toNat a.dedup_index_blocks.toNat
    rw [h.dedup_index_start, h.dedup_index_blocks]
  | _ => rfl

theorem Rearranged.mem_roles (h : Rearranged e a b) (r : Role) :
    r ∈ b.roles ↔ Role.permute e r ∈ a.roles := by
  rw [superblock_t.mem_roles_iff, superblock_t.mem_roles_iff, h.dedup_flag,
    Role.permute_eq_dedupIndex_iff]

/-- A rearrangement breaks the same laws of the layout. -/
theorem Rearranged.layoutFault_iff (h : Rearranged e a b) (c : ryefs_valid_t) :
    LayoutFault b c ↔ LayoutFault a c := by
  cases c with
  | RYEFS_ERR_BLOCK_SIZE => simp only [LayoutFault, h.block_size]
  | RYEFS_ERR_DEDUP_REGION =>
    simp only [LayoutFault, h.dedup_flag, h.dedup_index_start, h.dedup_index_blocks]
  | RYEFS_ERR_ZERO_REGION =>
    simp only [LayoutFault, h.extent]
    exact (e.surjective.exists (p := fun m => (a.extent (.mandatory m)).blocks = ∅)).symm
  | RYEFS_ERR_REGION_BOUNDS =>
    simp only [LayoutFault, h.extent, h.mem_roles, h.block_count]
    exact ((Role.permute e).surjective.exists (p := fun r =>
      r ∈ a.roles ∧ ¬ (a.extent r).blocks ⊆ Finset.range a.block_count.toNat)).symm
  | RYEFS_ERR_REGION_OVERLAP =>
    simp only [LayoutFault, h.extent, h.mem_roles]
    symm
    rw [(Role.permute e).surjective.exists]
    refine exists_congr fun r => and_congr Iff.rfl ?_
    rw [(Role.permute e).surjective.exists]
    refine exists_congr fun s => and_congr Iff.rfl (and_congr ?_ Iff.rfl)
    exact (Role.permute e).apply_eq_iff_eq.not
  | RYEFS_ERR_ROOT_INODE => simp only [LayoutFault, h.root_inode, h.inode_count]
  | _ => rfl

theorem Rearranged.ryefs_validate_layout_eq (h : Rearranged e a b) :
    (ryefs_validate_layout (some b)).value = (ryefs_validate_layout (some a)).value := by
  rw [ryefs_validate_layout_eq_verdict, ryefs_validate_layout_eq_verdict]
  exact verdict_congr fun c _ => h.layoutFault_iff c

end

/-- The superblock that gives each mandatory role the pair of another role. -/
def superblock_t.reassign {u64 : Type} (sb : superblock_t u64) (e : Equiv.Perm Mandatory) :
    superblock_t u64 :=
  { sb with
    journal1_start := (sb.mandatory (e .journal1)).start
    journal1_blocks := (sb.mandatory (e .journal1)).len
    journal2_start := (sb.mandatory (e .journal2)).start
    journal2_blocks := (sb.mandatory (e .journal2)).len
    bitmap_start := (sb.mandatory (e .bitmap)).start
    bitmap_blocks := (sb.mandatory (e .bitmap)).len
    inode_bitmap_start := (sb.mandatory (e .inodeBitmap)).start
    inode_bitmap_blocks := (sb.mandatory (e .inodeBitmap)).len
    inode_table_start := (sb.mandatory (e .inodeTable)).start
    inode_table_blocks := (sb.mandatory (e .inodeTable)).len
    data_start := (sb.mandatory (e .data)).start
    data_blocks := (sb.mandatory (e .data)).len }

theorem superblock_t.rearranged_reassign (sb : superblock_t UInt64) (e : Equiv.Perm Mandatory) :
    Rearranged e sb (sb.reassign e) where
  block_size := rfl
  block_count := rfl
  inode_count := rfl
  root_inode := rfl
  dedup_flag := Iff.rfl
  dedup_index_start := rfl
  dedup_index_blocks := rfl
  mandatory m := by cases m <;> rfl

/-- The mandatory regions are interchangeable: in any order of their pairs the
validators return the same code, the codes of refusals included. -/
theorem mandatory_regions_interchangeable (sb : superblock_t UInt64) (e : Equiv.Perm Mandatory) :
    (ryefs_validate_layout (some (sb.reassign e))).value =
      (ryefs_validate_layout (some sb)).value ∧
    ∀ req, (ryefs_validate_mount (some (sb.reassign e)) req).value =
      (ryefs_validate_mount (some sb) req).value := by
  have hlayout := (sb.rearranged_reassign e).ryefs_validate_layout_eq
  refine ⟨hlayout, ?_⟩
  intro req
  cases req with
  | none => rfl
  | some req =>
    simp only [ryefs_validate_mount, value_bind, hlayout]
    rfl

end ryefs
