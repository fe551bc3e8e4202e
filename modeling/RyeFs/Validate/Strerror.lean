import RyeFs.Validate.Mount

open verdicts
open ryefs.ryefs_valid_t

namespace ryefs

/-- The number that the enumeration gives the code. -/
def ryefs_valid_t.number : ryefs_valid_t → UInt32
  | RYEFS_VALID_OK => 0
  | RYEFS_ERR_NULL_ARG => 1
  | RYEFS_ERR_BLOCK_SIZE => 2
  | RYEFS_ERR_ZERO_REGION => 3
  | RYEFS_ERR_REGION_BOUNDS => 4
  | RYEFS_ERR_REGION_OVERLAP => 5
  | RYEFS_ERR_DEDUP_REGION => 6
  | RYEFS_ERR_ROOT_INODE => 7
  | RYEFS_ERR_UNKNOWN_FEATURE => 8
  | RYEFS_ERR_DEDUP_UNAWARE_RW => 9
  | RYEFS_ERR_VOLUME_SUSPECT => 10
  | RYEFS_ERR_DIRTY_READONLY => 11

/-- The switch compares numbers: a caller may pass one outside the enumeration,
which no case catches. -/
def ryefs_valid_strerror (code : UInt32) : String :=
  if code = RYEFS_VALID_OK.number then "ok"
  else if code = RYEFS_ERR_NULL_ARG.number then "null argument"
  else if code = RYEFS_ERR_BLOCK_SIZE.number then "unsupported block size"
  else if code = RYEFS_ERR_ZERO_REGION.number then "mandatory region has zero length"
  else if code = RYEFS_ERR_REGION_BOUNDS.number then "region extends past end of volume"
  else if code = RYEFS_ERR_REGION_OVERLAP.number then "regions overlap"
  else if code = RYEFS_ERR_DEDUP_REGION.number then "dedup flag and dedup region disagree"
  else if code = RYEFS_ERR_ROOT_INODE.number then "root inode out of range"
  else if code = RYEFS_ERR_UNKNOWN_FEATURE.number then "unknown feature flag set"
  else if code = RYEFS_ERR_DEDUP_UNAWARE_RW.number then
    "read-write mount of dedup volume without dedup support"
  else if code = RYEFS_ERR_VOLUME_SUSPECT.number then "volume marked suspect."
  else if code = RYEFS_ERR_DIRTY_READONLY.number then "volume is dirty."
  else "unknown error"

theorem mem_ok_cons_refusal_order (c : ryefs_valid_t) : c ∈ RYEFS_VALID_OK :: refusal_order := by
  cases c <;> decide

/-- No two codes share a text. -/
theorem ryefs_valid_strerror_injective :
    Function.Injective fun c : ryefs_valid_t => ryefs_valid_strerror c.number := by
  have hnodup : ((RYEFS_VALID_OK :: refusal_order).map
      fun c => ryefs_valid_strerror c.number).Nodup := by decide
  intro c d htext
  exact List.inj_on_of_nodup_map hnodup (mem_ok_cons_refusal_order c)
    (mem_ok_cons_refusal_order d) htext

/-- The last text is kept for the numbers outside the enumeration. -/
theorem ryefs_valid_strerror_eq_unknown_iff (code : UInt32) :
    ryefs_valid_strerror code = "unknown error" ↔ ∀ c : ryefs_valid_t, code ≠ c.number := by
  constructor
  · rintro htext c rfl
    cases c <;> exact absurd htext (by decide)
  · intro hnone
    simp only [ryefs_valid_strerror, hnone, if_false]

/-- The text shown for a refused mount tells what is wrong with it. -/
theorem mountFault_of_strerror_eq {sb : Option (superblock_t UInt64)}
    {req : Option ryefs_mount_req_t} {c : ryefs_valid_t} (hc : c ≠ RYEFS_VALID_OK)
    (htext : ryefs_valid_strerror (ryefs_validate_mount sb req).value.number =
      ryefs_valid_strerror c.number) : MountFault sb req c := by
  have hcode : (ryefs_validate_mount sb req).value = c := ryefs_valid_strerror_injective htext
  rw [← hcode] at hc ⊢
  rw [ryefs_validate_mount_eq_verdict] at hc ⊢
  obtain ⟨_, _, _, hfault, _⟩ := verdict_first hc
  exact hfault

/-- The text for the volume whose data region starts inside its inode table. -/
theorem mountFault_of_strerror_eq_overlap :
    MountFault (some overlappingVolume) (some ⟨1, 1⟩) RYEFS_ERR_REGION_OVERLAP :=
  mountFault_of_strerror_eq (by decide) (by decide)

end ryefs
