import RyeFs.Validate.Mount

open traced verdicts words
open ryefs.ryefs_valid_t

namespace ryefs

/-- The refusals of a structurally valid volume with known flags. -/
def policy_codes : List ryefs_valid_t :=
  [RYEFS_ERR_DEDUP_UNAWARE_RW, RYEFS_ERR_VOLUME_SUSPECT, RYEFS_ERR_DIRTY_READONLY]

/-- The refusals before every policy: a pointer is absent, or the image itself is
at fault. -/
def image_codes : List ryefs_valid_t :=
  RYEFS_ERR_NULL_ARG :: layout_order ++ [RYEFS_ERR_UNKNOWN_FEATURE]

theorem refusal_order_eq_append : refusal_order = image_codes ++ policy_codes := rfl

theorem ryefs_validate_mount_ok_iff (sb : superblock_t UInt64) (req : ryefs_mount_req_t) :
    (ryefs_validate_mount (some sb) (some req)).value = RYEFS_VALID_OK ↔
      (∀ c ∈ image_codes, ¬ MountFault (some sb) (some req) c) ∧
      ¬ (sb.HasDedup ∧ req.writable ≠ 0 ∧ req.supports_dedup = 0) ∧
      ¬ (HasFlag sb.flags SB_FLAG_VOLUME_SUSPECT ∧ req.writable ≠ 0) ∧
      ¬ (HasFlag sb.flags SB_FLAG_DIRTY ∧ req.writable = 0) := by
  rw [ryefs_validate_mount_eq_verdict, verdict_eq_ok_iff ok_notMem_refusal_order,
    refusal_order_eq_append, List.forall_mem_append]
  simp only [policy_codes, List.forall_mem_cons, List.not_mem_nil, mountFault_dedup_unaware_iff,
    mountFault_suspect_iff, mountFault_dirty_iff]
  simp

/-- The conditions on the image do not depend on what the caller asks for. -/
theorem mountFault_iff_of_mem_image_codes (sb : superblock_t UInt64)
    (req other : ryefs_mount_req_t) :
    ∀ c ∈ image_codes, MountFault (some sb) (some req) c ↔ MountFault (some sb) (some other) c := by
  intro c hc
  simp only [image_codes, layout_order, List.cons_append, List.nil_append, List.mem_cons,
    List.not_mem_nil, or_false] at hc
  rcases hc with rfl | rfl | rfl | rfl | rfl | rfl | rfl | rfl
  · exact iff_of_false not_mountFault_null_arg not_mountFault_null_arg
  all_goals exact Iff.rfl

/-- A suspect volume that is also dirty is refused in every mode: read-write for
the one mark, read-only for the other. -/
theorem not_ok_of_suspect_of_dirty {sb : superblock_t UInt64}
    (hsuspect : HasFlag sb.flags SB_FLAG_VOLUME_SUSPECT) (hdirty : HasFlag sb.flags SB_FLAG_DIRTY)
    (req : ryefs_mount_req_t) :
    (ryefs_validate_mount (some sb) (some req)).value ≠ RYEFS_VALID_OK := by
  intro hok
  obtain ⟨_, _, hwritable, hreadonly⟩ := (ryefs_validate_mount_ok_iff sb req).mp hok
  by_cases hmode : req.writable = 0
  · exact hreadonly ⟨hdirty, hmode⟩
  · exact hwritable ⟨hsuspect, hmode⟩

/-- Where the image is valid and not both suspect and dirty, one of two requests
is accepted: read-write with dedup support on a dirty volume, read-only on a
clean one. -/
theorem exists_ok_of_not_suspect_and_dirty {sb : superblock_t UInt64} {req : ryefs_mount_req_t}
    (himage : ∀ c ∈ image_codes, ¬ MountFault (some sb) (some req) c)
    (hmarks : ¬ (HasFlag sb.flags SB_FLAG_VOLUME_SUSPECT ∧ HasFlag sb.flags SB_FLAG_DIRTY)) :
    ∃ other, (ryefs_validate_mount (some sb) (some other)).value = RYEFS_VALID_OK := by
  have hother (other : ryefs_mount_req_t) :
      ∀ c ∈ image_codes, ¬ MountFault (some sb) (some other) c := fun c hc hfault =>
    himage c hc ((mountFault_iff_of_mem_image_codes sb other req c hc).mp hfault)
  by_cases hdirty : HasFlag sb.flags SB_FLAG_DIRTY
  · have hsuspect : ¬ HasFlag sb.flags SB_FLAG_VOLUME_SUSPECT := fun h => hmarks ⟨h, hdirty⟩
    refine ⟨⟨1, 1⟩, (ryefs_validate_mount_ok_iff sb _).mpr ⟨hother _, ?_, ?_, ?_⟩⟩
    · rintro ⟨_, _, hunaware⟩
      exact absurd hunaware (by decide)
    · rintro ⟨h, _⟩
      exact hsuspect h
    · rintro ⟨_, hreadonly⟩
      exact absurd hreadonly (by decide)
  · refine ⟨⟨0, 0⟩, (ryefs_validate_mount_ok_iff sb _).mpr ⟨hother _, ?_, ?_, ?_⟩⟩
    · rintro ⟨_, hwritable, _⟩
      exact hwritable rfl
    · rintro ⟨_, hwritable⟩
      exact hwritable rfl
    · rintro ⟨h, _⟩
      exact hdirty h

/-- A refusal by policy leaves the user a way in exactly when the volume is not
marked both suspect and dirty. -/
theorem policy_refusal_has_way_in_iff (sb : superblock_t UInt64) (req : ryefs_mount_req_t)
    (hpolicy : (ryefs_validate_mount (some sb) (some req)).value ∈ policy_codes) :
    (∃ other, (ryefs_validate_mount (some sb) (some other)).value = RYEFS_VALID_OK) ↔
      ¬ (HasFlag sb.flags SB_FLAG_VOLUME_SUSPECT ∧ HasFlag sb.flags SB_FLAG_DIRTY) := by
  constructor
  · rintro ⟨other, hok⟩ ⟨hsuspect, hdirty⟩
    exact not_ok_of_suspect_of_dirty hsuspect hdirty other hok
  · have hdisjoint : ∀ c ∈ policy_codes, c ∉ image_codes := by decide
    have hnotMem := hdisjoint _ hpolicy
    rw [ryefs_validate_mount_eq_verdict, refusal_order_eq_append] at hnotMem
    exact exists_ok_of_not_suspect_and_dirty
      (not_bad_of_verdict_append_notMem (by decide) hnotMem)

/-- The packed volume after a crash, found damaged. -/
def lockedVolume : superblock_t UInt64 :=
  { packedVolume with flags := SB_FLAG_DIRTY ||| SB_FLAG_VOLUME_SUSPECT }

theorem lockedVolume_has_no_way_in :
    (ryefs_validate_mount (some lockedVolume) (some ⟨0, 0⟩)).value = RYEFS_ERR_DIRTY_READONLY ∧
      ¬ ∃ other,
        (ryefs_validate_mount (some lockedVolume) (some other)).value = RYEFS_VALID_OK := by
  refine ⟨by decide, ?_⟩
  rintro ⟨other, hok⟩
  exact not_ok_of_suspect_of_dirty (by decide) (by decide) other hok

/-- A suspect volume that was cleanly unmounted can still be mounted read-only. -/
theorem suspect_packedVolume_has_way_in :
    ∃ other, (ryefs_validate_mount
      (some { packedVolume with flags := SB_FLAG_VOLUME_SUSPECT }) (some other)).value =
        RYEFS_VALID_OK :=
  (policy_refusal_has_way_in_iff { packedVolume with flags := SB_FLAG_VOLUME_SUSPECT } ⟨1, 1⟩
    (by decide)).mpr (by decide)

end ryefs
