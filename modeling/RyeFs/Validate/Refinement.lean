import RyeFs.Validate.Laws

open extents traced verdicts words
open ryefs.ryefs_valid_t

namespace ryefs

theorem dedup_tests_iff_fault (sb : superblock_t UInt64) :
    ((sb.unbounded.flags &&& SB_FLAG_DEDUP ≠ 0 ∧ sb.unbounded.dedup_index_blocks = 0) ∨
      (¬ sb.unbounded.flags &&& SB_FLAG_DEDUP ≠ 0 ∧
        (sb.unbounded.dedup_index_start ≠ 0 ∨ sb.unbounded.dedup_index_blocks ≠ 0))) ↔
      LayoutFault sb RYEFS_ERR_DEDUP_REGION := by
  rw [and_ne_zero_iff_hasFlag]
  rfl

/-- The layout validator refines the ordered laws: its code is the first law that
the superblock breaks in exact arithmetic. -/
theorem ryefs_validate_layout_eq_verdict (sb : superblock_t UInt64) :
    (ryefs_validate_layout (some sb)).value =
      verdict RYEFS_VALID_OK layout_order (LayoutFault sb) := by
  have hsize : (!ryefs_block_size_supported sb.unbounded.block_size) = true ↔
      LayoutFault sb RYEFS_ERR_BLOCK_SIZE := by
    rw [Bool.not_eq_true', ← Bool.not_eq_true, ryefs_block_size_supported_iff]
    rfl
  have hroot : sb.unbounded.root_inode = 0 ∨ sb.unbounded.root_inode > sb.unbounded.inode_count ↔
      LayoutFault sb RYEFS_ERR_ROOT_INODE := Iff.rfl
  rw [ryefs_validate_layout_value_unbounded, layout_order, verdict_cons hsize,
    verdict_cons (dedup_tests_iff_fault sb), verdict_cons (any_zero_region_iff_fault sb),
    verdict_cons (any_out_of_bounds_iff_fault sb), verdict_cons (any_overlap_iff_fault sb),
    verdict_cons hroot, verdict_nil, ite_or]
  unfold ryefs_validate_layout
  simp only [sb.map_region_unbounded, value_ite, value_bind, value_pure]
  rfl

/-- The order in which the feature flags are checked. -/
def feature_order : List ryefs_valid_t := [RYEFS_ERR_UNKNOWN_FEATURE, RYEFS_ERR_DEDUP_UNAWARE_RW]

/-- The feature validator reads no more of the superblock than its flags. -/
theorem ryefs_validate_features_eq_verdict (sb : superblock_t UInt64) (req : ryefs_mount_req_t) :
    ryefs_validate_features sb.flags (some req) =
      verdict RYEFS_VALID_OK feature_order (MountFault (some sb) (some req)) := by
  have hunknown : sb.flags &&& ~~~RYEFS_SB_FLAGS_KNOWN ≠ 0 ↔
      MountFault (some sb) (some req) RYEFS_ERR_UNKNOWN_FEATURE := by
    rw [and_ne_zero_iff_hasFlag, mountFault_unknown_feature_iff]
  have hunaware :
      (sb.flags &&& SB_FLAG_DEDUP ≠ 0 ∧ req.writable ≠ 0 ∧ req.supports_dedup = 0) ↔
        MountFault (some sb) (some req) RYEFS_ERR_DEDUP_UNAWARE_RW := by
    rw [and_ne_zero_iff_hasFlag, mountFault_dedup_unaware_iff]
    rfl
  rw [feature_order, verdict_cons hunknown, verdict_cons hunaware, verdict_nil]
  rfl

theorem ok_notMem_layout_order : RYEFS_VALID_OK ∉ layout_order := by
  decide

theorem ok_notMem_feature_order : RYEFS_VALID_OK ∉ feature_order := by
  decide

theorem ok_notMem_refusal_order : RYEFS_VALID_OK ∉ refusal_order := by
  decide

/-- The null test comes first: nothing is read through an absent pointer. -/
theorem verdict_eq_null_arg {sb : Option (superblock_t UInt64)} {req : Option ryefs_mount_req_t}
    (habsent : sb = none ∨ req = none) :
    verdict RYEFS_VALID_OK refusal_order (MountFault sb req) = RYEFS_ERR_NULL_ARG := by
  have hnull : True ↔ MountFault sb req RYEFS_ERR_NULL_ARG := (iff_true_intro habsent).symm
  rw [refusal_order, List.cons_append, verdict_cons hnull, if_true]

/-- With both pointers there, the layout speaks first, then the features, then
the two marks of the volume. -/
theorem verdict_of_present (sb : superblock_t UInt64) (req : ryefs_mount_req_t) :
    verdict RYEFS_VALID_OK refusal_order (MountFault (some sb) (some req)) =
      if (ryefs_validate_layout (some sb)).value = RYEFS_VALID_OK then
        if ryefs_validate_features sb.flags (some req) = RYEFS_VALID_OK then
          verdict RYEFS_VALID_OK [RYEFS_ERR_VOLUME_SUSPECT, RYEFS_ERR_DIRTY_READONLY]
            (MountFault (some sb) (some req))
        else ryefs_validate_features sb.flags (some req)
      else (ryefs_validate_layout (some sb)).value := by
  have hstages : refusal_order = RYEFS_ERR_NULL_ARG :: (layout_order ++ (feature_order ++
      [RYEFS_ERR_VOLUME_SUSPECT, RYEFS_ERR_DIRTY_READONLY])) := rfl
  have hnull : False ↔ MountFault (some sb) (some req) RYEFS_ERR_NULL_ARG :=
    (iff_false_intro not_mountFault_null_arg).symm
  rw [hstages, verdict_cons hnull, if_false, verdict_append ok_notMem_layout_order,
    verdict_congr (mountFault_iff_layoutFault (some req)), ← ryefs_validate_layout_eq_verdict,
    verdict_append ok_notMem_feature_order, ← ryefs_validate_features_eq_verdict]

/-- The mount validator refines the ordered laws: its code is the first condition
met in exact arithmetic, whichever pointers are absent. -/
theorem ryefs_validate_mount_eq_verdict (sb : Option (superblock_t UInt64))
    (req : Option ryefs_mount_req_t) :
    (ryefs_validate_mount sb req).value =
      verdict RYEFS_VALID_OK refusal_order (MountFault sb req) := by
  cases sb with
  | none =>
    rw [verdict_eq_null_arg (Or.inl rfl)]
    rfl
  | some sb =>
    cases req with
    | none =>
      rw [verdict_eq_null_arg (Or.inr rfl)]
      rfl
    | some req =>
      have hsuspect : (sb.flags &&& SB_FLAG_VOLUME_SUSPECT ≠ 0 ∧ req.writable ≠ 0) ↔
          MountFault (some sb) (some req) RYEFS_ERR_VOLUME_SUSPECT := by
        rw [and_ne_zero_iff_hasFlag, mountFault_suspect_iff]
      have hdirty : (sb.flags &&& SB_FLAG_DIRTY ≠ 0 ∧ req.writable = 0) ↔
          MountFault (some sb) (some req) RYEFS_ERR_DIRTY_READONLY := by
        rw [and_ne_zero_iff_hasFlag, mountFault_dirty_iff]
      rw [verdict_of_present, verdict_cons hsuspect, verdict_cons hdirty, verdict_nil]
      unfold ryefs_validate_mount
      -- the source tests for a refusal, the stages of the verdict for its absence
      simp only [value_bind, value_ite, value_pure, ne_eq, ite_not]

end ryefs
