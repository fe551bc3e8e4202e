import RyeFs.Validate.Regions

open extents traced words

namespace ryefs

/-- The region in exact numbers. -/
def region_t.unbounded (r : region_t UInt64) : region_t Nat := ⟨r.start.toNat, r.len.toNat⟩

theorem region_in_bounds_simulates (r : region_t UInt64) (block_count : UInt64) :
    Simulates UInt64.toNat Eq (region_in_bounds r block_count)
      (region_in_bounds r.unbounded block_count.toNat) := by
  unfold region_in_bounds
  apply Simulates.ite toNat_eq_zero_iff.symm (Simulates.pure rfl)
  apply Simulates.ite UInt64.le_iff_toNat_le (Simulates.pure rfl)
  refine Simulates.bind (Simulates.sub block_count r.start) ?_
  rintro room _ rfl
  exact Simulates.ite UInt64.lt_iff_toNat_lt (Simulates.pure rfl) (Simulates.pure rfl)

theorem regions_overlap_simulates (a b : region_t UInt64) :
    Simulates UInt64.toNat Eq (regions_overlap a b) (regions_overlap a.unbounded b.unbounded) := by
  have hempty : a.len = 0 ∨ b.len = 0 ↔ a.unbounded.len = 0 ∨ b.unbounded.len = 0 :=
    or_congr toNat_eq_zero_iff.symm toNat_eq_zero_iff.symm
  unfold regions_overlap
  apply Simulates.ite hempty (Simulates.pure rfl)
  refine Simulates.bind (Simulates.add b.start b.len) ?_
  rintro b_end _ rfl
  refine Simulates.ite UInt64.lt_iff_toNat_lt ?_ ?_
  · refine Simulates.bind (Simulates.add a.start a.len) ?_
    rintro a_end _ rfl
    exact Simulates.pure (decide_eq_decide.mpr UInt64.lt_iff_toNat_lt)
  · exact Simulates.pure rfl

theorem any_out_of_bounds_simulates (regions : List (region_t UInt64)) (total : UInt64) :
    Simulates UInt64.toNat Eq (any_out_of_bounds regions total)
      (any_out_of_bounds (regions.map region_t.unbounded) total.toNat) := by
  unfold any_out_of_bounds
  apply Simulates.anyM
  intro r
  refine Simulates.bind (region_in_bounds_simulates r total) ?_
  rintro inside _ rfl
  exact Simulates.pure rfl

theorem any_overlap_simulates (regions : List (region_t UInt64)) :
    Simulates UInt64.toNat Eq (any_overlap regions)
      (any_overlap (regions.map region_t.unbounded)) := by
  induction regions with
  | nil => exact Simulates.pure rfl
  | cons r rest ih =>
    have hinner := Simulates.anyM region_t.unbounded rest (regions_overlap_simulates r)
    rw [List.map_cons, any_overlap, any_overlap]
    refine Simulates.bind hinner ?_
    rintro found _ rfl
    exact Simulates.ite Iff.rfl (Simulates.pure rfl) ih

/-- The array and the exact fields of a superblock correspond entry by entry. -/
theorem layout_regions_unbounded (sb : superblock_t UInt64) (dedup_flag : Bool) :
    (layout_regions sb dedup_flag).map region_t.unbounded =
      layout_regions sb.unbounded dedup_flag := by
  cases dedup_flag <;> rfl

theorem any_zero_region_unbounded (regions : List (region_t UInt64)) :
    any_zero_region (regions.map region_t.unbounded) = any_zero_region regions := by
  unfold any_zero_region
  rw [← List.map_drop, ← List.map_take, List.any_map]
  congr 1
  funext r
  exact decide_eq_decide.mpr toNat_eq_zero_iff

/-- The layout validator on machine words and the same passes on naturals return
the same code, unless a machine operation of the run wraps around. -/
theorem ryefs_validate_layout_simulates (sb : superblock_t UInt64) :
    Simulates UInt64.toNat Eq (ryefs_validate_layout (some sb))
      (ryefs_validate_layout (some sb.unbounded)) := by
  have hblocks : sb.dedup_index_blocks = 0 ↔ sb.unbounded.dedup_index_blocks = 0 :=
    toNat_eq_zero_iff.symm
  have hstart : sb.dedup_index_start = 0 ↔ sb.unbounded.dedup_index_start = 0 :=
    toNat_eq_zero_iff.symm
  have hroot : sb.root_inode = 0 ↔ sb.unbounded.root_inode = 0 := toNat_eq_zero_iff.symm
  unfold ryefs_validate_layout
  apply Simulates.ite Iff.rfl (Simulates.pure rfl)
  apply Simulates.ite (and_congr Iff.rfl hblocks) (Simulates.pure rfl)
  apply Simulates.ite (and_congr Iff.rfl (or_congr (not_congr hstart) (not_congr hblocks)))
    (Simulates.pure rfl)
  dsimp only
  rw [← layout_regions_unbounded sb, any_zero_region_unbounded]
  apply Simulates.ite Iff.rfl (Simulates.pure rfl)
  refine Simulates.bind (any_out_of_bounds_simulates _ _) ?_
  rintro outside _ rfl
  apply Simulates.ite Iff.rfl (Simulates.pure rfl)
  refine Simulates.bind (any_overlap_simulates _) ?_
  rintro overlap _ rfl
  apply Simulates.ite Iff.rfl (Simulates.pure rfl)
  exact Simulates.ite (or_congr hroot UInt64.lt_iff_toNat_lt) (Simulates.pure rfl)
    (Simulates.pure rfl)

/-- An operation that is in range on a volume of `total` blocks: a difference is
taken from `total` itself by a smaller number, and a sum is at most `total`. -/
def InRange (total : UInt64) : Op UInt64 → Prop
  | .add x y => x.toNat + y.toNat ≤ total.toNat
  | .sub x y => x = total ∧ y.toNat < total.toNat

theorem InRange.exact {total : UInt64} {op : Op UInt64} (h : InRange total op) :
    op.Exact UInt64.toNat := by
  cases op with
  | add x y =>
    have hsum : x.toNat + y.toNat ≤ total.toNat := h
    have htotal := total.toNat_lt
    exact Op.exact_add_iff.mpr (by omega)
  | sub x y =>
    obtain ⟨rfl, hlt⟩ := h
    exact Op.exact_sub_iff.mpr (by omega)

/-- The bounds test subtracts only after it has compared. -/
theorem region_in_bounds_in_range (r : region_t UInt64) (total : UInt64) :
    Each (InRange total) (region_in_bounds r total) := by
  unfold region_in_bounds
  refine Each.ite (fun _ => Each.pure true) (fun _ => ?_)
  refine Each.ite (fun _ => Each.pure false) (fun hstart => ?_)
  have hlt : r.start.toNat < total.toNat := by
    rw [ge_iff_le, UInt64.le_iff_toNat_le] at hstart
    omega
  refine each_bind.mpr ⟨?_, Each.ite (fun _ => Each.pure false) (fun _ => Each.pure true)⟩
  intro op hop
  rw [ops_sub, List.mem_singleton] at hop
  subst op
  exact ⟨rfl, hlt⟩

theorem any_out_of_bounds_in_range (regions : List (region_t UInt64)) (total : UInt64) :
    Each (InRange total) (any_out_of_bounds regions total) := by
  apply Each.anyM
  intro r _
  exact each_bind.mpr ⟨region_in_bounds_in_range r total, Each.pure _⟩

/-- The exact end of the region is inside the volume, unless the region is empty. -/
def region_t.EndsWithin (r : region_t UInt64) (total : UInt64) : Prop :=
  r.len ≠ 0 → r.start.toNat + r.len.toNat ≤ total.toNat

theorem endsWithin_of_region_in_bounds {r : region_t UInt64} {total : UInt64}
    (hinside : (region_in_bounds r total).value = true) : r.EndsWithin total := by
  intro hlen
  have hexact : Exact UInt64.toNat (region_in_bounds r total) :=
    (region_in_bounds_in_range r total).mono fun _ hop => hop.exact
  have hvalue := region_in_bounds_simulates r total hexact
  rw [hvalue, region_in_bounds_iff_subset, Extent.blocks_subset_range_iff] at hinside
  have hpos : r.len.toNat ≠ 0 := fun hzero => hlen (toNat_eq_zero_iff.mp hzero)
  rcases hinside with hzero | hstop
  · exact absurd hzero hpos
  · exact hstop

/-- The bounds pass leaves only regions whose sums are safe to form. -/
theorem endsWithin_of_any_out_of_bounds {regions : List (region_t UInt64)} {total : UInt64}
    (hpass : (any_out_of_bounds regions total).value = false) :
    ∀ r ∈ regions, r.EndsWithin total := by
  intro r hr
  unfold any_out_of_bounds at hpass
  rw [value_anyM, List.any_eq_false] at hpass
  apply endsWithin_of_region_in_bounds
  simpa using hpass r hr

theorem regions_overlap_in_range {a b : region_t UInt64} {total : UInt64}
    (ha : a.EndsWithin total) (hb : b.EndsWithin total) :
    Each (InRange total) (regions_overlap a b) := by
  unfold regions_overlap
  refine Each.ite (fun _ => Each.pure false) (fun hempty => ?_)
  rw [not_or] at hempty
  have hadd (r : region_t UInt64) (hr : r.EndsWithin total) (hlen : r.len ≠ 0) :
      Each (InRange total) (add r.start r.len) := by
    intro op hop
    rw [ops_add, List.mem_singleton] at hop
    subst op
    exact hr hlen
  refine each_bind.mpr ⟨hadd b hb hempty.2, ?_⟩
  exact Each.ite (fun _ => each_bind.mpr ⟨hadd a ha hempty.1, Each.pure _⟩)
    (fun _ => Each.pure false)

-- On its own the test misses a shared block when a sum wraps around: the second
-- region ends at 0.
example : (regions_overlap (⟨1, 2⟩ : region_t UInt64) ⟨1, 18446744073709551615⟩).value = false := by
  decide

theorem any_overlap_in_range {regions : List (region_t UInt64)} {total : UInt64}
    (hends : ∀ r ∈ regions, r.EndsWithin total) : Each (InRange total) (any_overlap regions) := by
  induction regions with
  | nil => exact Each.pure false
  | cons r rest ih =>
    rw [List.forall_mem_cons] at hends
    obtain ⟨hhead, htail⟩ := hends
    refine each_bind.mpr ⟨Each.anyM fun s hs => regions_overlap_in_range hhead (htail s hs), ?_⟩
    exact Each.ite (fun _ => Each.pure true) (fun _ => ih htail)

/-- Every 64-bit operation of the layout validator is in range: the bounds pass
comes before the first sum. -/
theorem ryefs_validate_layout_in_range (sb : superblock_t UInt64) :
    Each (InRange sb.block_count) (ryefs_validate_layout (some sb)) := by
  unfold ryefs_validate_layout
  refine Each.ite (fun _ => Each.pure _) (fun _ => ?_)
  refine Each.ite (fun _ => Each.pure _) (fun _ => ?_)
  refine Each.ite (fun _ => Each.pure _) (fun _ => ?_)
  refine Each.ite (fun _ => Each.pure _) (fun _ => ?_)
  refine each_bind.mpr ⟨any_out_of_bounds_in_range _ _, ?_⟩
  refine Each.ite (fun _ => Each.pure _) (fun hpass => ?_)
  have hends := endsWithin_of_any_out_of_bounds (Bool.not_eq_true _ ▸ hpass)
  refine each_bind.mpr ⟨any_overlap_in_range hends, ?_⟩
  refine Each.ite (fun _ => Each.pure _) (fun _ => ?_)
  exact Each.ite (fun _ => Each.pure _) (fun _ => Each.pure _)

/-- The code of the layout validator is the code of its passes on naturals. -/
theorem ryefs_validate_layout_value_unbounded (sb : superblock_t UInt64) :
    (ryefs_validate_layout (some sb)).value = (ryefs_validate_layout (some sb.unbounded)).value := by
  apply ryefs_validate_layout_simulates sb
  exact (ryefs_validate_layout_in_range sb).mono fun _ hop => hop.exact

/-- No run of the layout validator depends on wrap-around: its differences are
taken from the block count by a smaller number, its sums are at most the block
count, and its code is that of the same passes on unbounded naturals. -/
theorem ryefs_validate_layout_never_wraps (sb : superblock_t UInt64) :
    (∀ total start, Op.sub total start ∈ (ryefs_validate_layout (some sb)).ops →
      total = sb.block_count ∧ start.toNat < sb.block_count.toNat) ∧
    (∀ start len, Op.add start len ∈ (ryefs_validate_layout (some sb)).ops →
      start.toNat + len.toNat ≤ sb.block_count.toNat ∧ sb.block_count.toNat < 2 ^ 64) ∧
    (ryefs_validate_layout (some sb)).value = (ryefs_validate_layout (some sb.unbounded)).value := by
  refine ⟨?_, ?_, ryefs_validate_layout_value_unbounded sb⟩
  · intro total start hop
    exact ryefs_validate_layout_in_range sb _ hop
  · intro start len hop
    exact ⟨ryefs_validate_layout_in_range sb _ hop, sb.block_count.toNat_lt⟩

end ryefs
