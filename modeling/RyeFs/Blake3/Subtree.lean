import Mathlib.Order.Bounds.Defs
import RyeFs.Blake3.Chunk
import RyeFs.Lib.Wide

open buffers hashtree

namespace ryefs

section

variable (key : Vector UInt32 8) (flags : UInt8)

/-- The chaining value of a parent that is not the root. -/
def parentCv (left right : Vector UInt8 32) : Vector UInt8 32 :=
  chainingValue (parent_output (left ++ right) key flags)

theorem treeCv_node (l r : LeafTree Chunk) :
    treeCv key flags (.node l r) = parentCv key flags (treeCv key flags l) (treeCv key flags r) := rfl

/-- At each of the pointers, there is a whole chunk. -/
theorem length_of_mem_whole_chunks (input : List UInt8) :
    ∀ chunk ∈ (whole_chunks input).1, BLAKE3_CHUNK_LEN ≤ chunk.length := by
  induction input using whole_chunks.induct with
  | case1 input hmore _ _ _ ih =>
    rw [whole_chunks, if_pos hmore]
    exact List.forall_mem_cons.mpr ⟨hmore, ih⟩
  | case2 input hless =>
    rw [whole_chunks, if_neg hless]
    exact List.forall_mem_nil _

theorem hash_many_whole_chunks (index : Nat) (input : List UInt8) :
    (whole_chunks input).1.length = input.length / BLAKE3_CHUNK_LEN ∧
      (whole_chunks input).2 = input.drop (input.length / BLAKE3_CHUNK_LEN * BLAKE3_CHUNK_LEN) ∧
      blake3_hash_many_portable (whole_chunks input).1 (BLAKE3_CHUNK_LEN / BLAKE3_BLOCK_LEN) key
          (UInt64.ofNat index) true flags CHUNK_START CHUNK_END =
        (leadingChunks index (input.length / BLAKE3_CHUNK_LEN) input).map
          fun chunk => treeCv key flags (.leaf chunk) := by
  induction input using whole_chunks.induct generalizing index with
  | case1 input hmore _ _ _ ih =>
    obtain ⟨hcount, hrest, hcvs⟩ := ih (index + 1)
    have hdiv : input.length / BLAKE3_CHUNK_LEN =
        (input.drop BLAKE3_CHUNK_LEN).length / BLAKE3_CHUNK_LEN + 1 := by
      rw [List.length_drop]
      unfold BLAKE3_CHUNK_LEN at *
      omega
    rw [whole_chunks, if_pos hmore]
    refine ⟨?_, ?_, ?_⟩
    · rw [hdiv, ← hcount]
      rfl
    · change (whole_chunks (input.drop BLAKE3_CHUNK_LEN)).2 = _
      rw [hrest, List.drop_drop, hdiv, Nat.succ_mul, Nat.add_comm]
    · rw [hdiv, leadingChunks, List.map_cons, ← hcvs, UInt64.ofNat_add]
      change hash_one_portable input _ key _ flags CHUNK_START CHUNK_END :: _ = _
      rw [hash_one_portable_chunk hmore key flags index]
      rfl
  | case2 input hless =>
    have hzero : input.length / BLAKE3_CHUNK_LEN = 0 := Nat.div_eq_of_lt (Nat.lt_of_not_le hless)
    rw [whole_chunks, if_neg hless, hzero, Nat.zero_mul]
    exact ⟨rfl, rfl, rfl⟩

theorem hash_one_portable_parent (left right : Vector UInt8 32) :
    hash_one_portable (left.toList ++ right.toList) 1 key 0 (flags ||| PARENT) 0 0 =
      parentCv key flags left right := by
  have hblock : block_at (left.toList ++ right.toList) = left ++ right := by
    ext i hi
    rw [getElem_block_at, List.getD_eq_getElem _ _ (by simpa using hi), Vector.getElem_append]
    simp [List.getElem_append]
  have hflags : flags ||| PARENT ||| 0 ||| 0 = flags ||| PARENT := by
    rw [UInt8.or_zero, UInt8.or_zero]
  unfold hash_one_portable hash_one_loop hash_one_loop
  rw [if_pos rfl, hblock, hflags]
  rfl

theorem length_of_mem_parent_blocks (cvs : List (Vector UInt8 32)) :
    ∀ block ∈ (parent_blocks cvs).1, 1 * BLAKE3_BLOCK_LEN ≤ block.length := by
  induction cvs using parent_blocks.induct with
  | case1 => exact List.forall_mem_nil _
  | case2 odd => exact List.forall_mem_nil _
  | case3 left right rest _ _ _ ih =>
    refine List.forall_mem_cons.mpr ⟨?_, ih⟩
    rw [List.length_append, Vector.length_toList, Vector.length_toList]
    exact le_rfl

theorem left_subtree_len_eq {input : List UInt8} (hpos : 0 < input.length)
    (hsize : input.length < 2 ^ 64) :
    left_subtree_len input.length = leftChunks input * BLAKE3_CHUNK_LEN :=
  left_subtree_len_eq_pow hpos hsize

/-- The left subtree is the largest that leaves something for the right one. -/
theorem left_subtree_len_isGreatest {input_len : Nat} (hlarge : BLAKE3_CHUNK_LEN < input_len)
    (hsize : input_len < 2 ^ 64) :
    IsGreatest {len | (∃ k, len = 2 ^ k * BLAKE3_CHUNK_LEN) ∧ len < input_len}
      (left_subtree_len input_len) := by
  have hchunk : 0 < BLAKE3_CHUNK_LEN := Nat.zero_lt_succ _
  have hne : (input_len - 1) / BLAKE3_CHUNK_LEN ≠ 0 :=
    (Nat.div_pos (Nat.le_sub_one_of_lt hlarge) hchunk).ne'
  -- as many whole chunks leave at least one byte behind them
  have hfits (k : Nat) : 2 ^ k * BLAKE3_CHUNK_LEN < input_len ↔
      k ≤ ((input_len - 1) / BLAKE3_CHUNK_LEN).log2 := by
    rw [Nat.le_log2 hne, Nat.le_div_iff_mul_le hchunk]
    omega
  rw [left_subtree_len_eq_pow (Nat.zero_lt_of_lt hlarge) hsize]
  refine ⟨⟨⟨_, rfl⟩, (hfits _).mpr le_rfl⟩, ?_⟩
  rintro len ⟨⟨k, rfl⟩, hlt⟩
  exact Nat.mul_le_mul_right _ (Nat.pow_le_pow_right Nat.two_pos ((hfits k).mp hlt))

theorem left_subtree_len_isGreatest_chunks :
    IsGreatest {len | (∃ k, len = 2 ^ k * BLAKE3_CHUNK_LEN) ∧ len < 8 * 1024}
      (left_subtree_len (8 * 1024)) :=
  left_subtree_len_isGreatest (by decide) (by decide)

theorem hashTree_node {input : List UInt8} (h : input.length > BLAKE3_CHUNK_LEN) (index : Nat) :
    hashTree index input =
      .node (hashTree index (input.take (leftChunks input * BLAKE3_CHUNK_LEN)))
        (hashTree (index + leftChunks input) (input.drop (leftChunks input * BLAKE3_CHUNK_LEN))) := by
  rw [hashTree, if_pos h]

/-- The sizes of the two subtrees under the root of a large input. -/
theorem size_children {input : List UInt8} (h : input.length > BLAKE3_CHUNK_LEN) (index : Nat) :
    (hashTree index (input.take (leftChunks input * BLAKE3_CHUNK_LEN))).size = leftChunks input ∧
      (hashTree (index + leftChunks input)
        (input.drop (leftChunks input * BLAKE3_CHUNK_LEN))).size ≤ leftChunks input := by
  obtain ⟨hpos, hlt, hle⟩ := leftChunks_spec h
  rw [size_hashTree, size_hashTree, List.length_take, List.length_drop]
  unfold BLAKE3_CHUNK_LEN at *
  constructor
  · omega
  · omega

/-- A power of two of whole chunks has two halves of the same size. -/
theorem hashTree_halves {bytes : List UInt8} {m : Nat}
    (hbytes : bytes.length = 2 ^ (m + 1) * BLAKE3_CHUNK_LEN) (index : Nat) {l r : LeafTree Chunk}
    (h : hashTree index bytes = .node l r) :
    Complete l ∧ l.size = 2 ^ m ∧ Complete r ∧ r.size = 2 ^ m ∧
      l.leaves ++ r.leaves = leadingChunks index (2 ^ (m + 1)) bytes := by
  have htotal : (hashTree index bytes).size = 2 ^ (m + 1) := by
    have hpow := Nat.two_pow_pos (m + 1)
    rw [size_hashTree]
    unfold BLAKE3_CHUNK_LEN at *
    omega
  have hleaves : (hashTree index bytes).leaves = leadingChunks index (2 ^ (m + 1)) bytes := by
    obtain ⟨c, hc⟩ := Nat.exists_eq_add_one_of_ne_zero (Nat.two_pow_pos (m + 1)).ne'
    rw [leaves_hashTree, hc]
    exact chunksFrom_eq_leadingChunks (hbytes.trans (by rw [hc])) index
  have hcomplete := complete_hashTree index bytes
  rw [h] at htotal hleaves hcomplete
  obtain ⟨hl, hlsize, hr, hrsize⟩ := hcomplete.halves htotal
  exact ⟨hl, hlsize, hr, hrsize, hleaves⟩

theorem max_degree_le (target : Target) :
    max (blake3_simd_degree target) 2 ≤ target.MAX_SIMD_DEGREE_OR_2 := by
  obtain ⟨k, hk, hle⟩ := blake3_simd_degree_spec target
  unfold Target.MAX_SIMD_DEGREE_OR_2
  split_ifs
  · omega
  · omega

theorem even_MAX_SIMD_DEGREE_OR_2 (target : Target) : 2 ∣ target.MAX_SIMD_DEGREE_OR_2 := by
  unfold Target.MAX_SIMD_DEGREE_OR_2 Target.MAX_SIMD_DEGREE
  split_ifs
  all_goals omega

end

section

variable {target : Target} (htarget : target.Conforms) (key : Vector UInt32 8) (flags : UInt8)

include htarget

/-- One pass over a few chunks gives the chaining values of the leaves. -/
theorem compress_chunks_parallel_eq {input : List UInt8} (hpos : 0 < input.length)
    (hsize : input.length ≤ target.MAX_SIMD_DEGREE * BLAKE3_CHUNK_LEN) (index : Nat) :
    compress_chunks_parallel target input key (UInt64.ofNat index) flags =
      some ((chunksFrom index input).map fun chunk => treeCv key flags (.leaf chunk)) := by
  obtain ⟨hcount, hrest, hcvs⟩ := hash_many_whole_chunks key flags index input
  have hblocks : 0 < BLAKE3_CHUNK_LEN / BLAKE3_BLOCK_LEN := Nat.zero_lt_succ 15
  rw [← blake3_hash_many_eq htarget hblocks (length_of_mem_whole_chunks input)] at hcvs
  have hchunk : 0 < BLAKE3_CHUNK_LEN := Nat.zero_lt_succ _
  have hdivision := Nat.div_add_mod' input.length BLAKE3_CHUNK_LEN
  have hmod := Nat.mod_lt input.length hchunk
  have hfits : ¬ input.length / BLAKE3_CHUNK_LEN > target.MAX_SIMD_DEGREE :=
    Nat.not_lt.mpr (Nat.div_le_of_le_mul (by rw [Nat.mul_comm]; exact hsize))
  generalize input.length / BLAKE3_CHUNK_LEN = n at *
  have hfront : (input.take (n * BLAKE3_CHUNK_LEN)).length = n * BLAKE3_CHUNK_LEN := by
    rw [List.length_take]
    omega
  have hleading : leadingChunks index n input =
      leadingChunks index n (input.take (n * BLAKE3_CHUNK_LEN)) := by
    rw [← leadingChunks_append_left hfront (input.drop (n * BLAKE3_CHUNK_LEN)),
      List.take_append_drop]
  unfold compress_chunks_parallel
  simp only [hcvs, hcount, hrest, if_neg hfits]
  by_cases hmore : (input.drop (n * BLAKE3_CHUNK_LEN)).length > 0
  · have hlast : (input.drop (n * BLAKE3_CHUNK_LEN)).length ≤ BLAKE3_CHUNK_LEN := by
      rw [List.length_drop]
      omega
    have hchunks := chunksFrom_append hfront (List.length_pos_iff.mp hmore) index
    rw [List.take_append_drop, chunksFrom_of_le hlast, ← hleading] at hchunks
    rw [if_pos hmore, hchunks, List.map_append, List.map_singleton, ← UInt64.ofNat_add]
    change some (_ ++ [output_chaining_value target (chunk_state_output
      (chunk_state_update target (chunkAt key flags _) _))]) = _
    rw [chunk_cv_eq key flags (index + n) htarget hlast]
  · have hwhole : input.length = n * BLAKE3_CHUNK_LEN := by
      rw [List.length_drop] at hmore
      omega
    obtain ⟨m, hm⟩ : ∃ m, n = m + 1 := by
      apply Nat.exists_eq_add_one_of_ne_zero
      intro hzero
      rw [hzero] at hwhole
      omega
    rw [if_neg hmore, chunksFrom_eq_leadingChunks (n := m) (by rw [← hm]; exact hwhole), ← hm]

/-- One pass over a few children is one layer of parents. -/
theorem compress_parents_parallel_eq {cvs : List (Vector UInt8 32)}
    (hsize : cvs.length / 2 ≤ target.MAX_SIMD_DEGREE_OR_2) :
    compress_parents_parallel target cvs key flags = some (pairs (parentCv key flags) cvs) := by
  have hfits : ¬ (parent_blocks cvs).1.length > target.MAX_SIMD_DEGREE_OR_2 := by
    rw [(length_parent_blocks cvs).1]
    exact Nat.not_lt.mpr hsize
  have hlayer (cvs : List (Vector UInt8 32)) :
      blake3_hash_many_portable (parent_blocks cvs).1 1 key 0 false (flags ||| PARENT) 0 0 ++
        (parent_blocks cvs).2 = pairs (parentCv key flags) cvs := by
    induction cvs using parent_blocks.induct with
    | case1 => rfl
    | case2 odd => rfl
    | case3 left right rest _ _ _ ih =>
      rw [pairs, ← ih, ← hash_one_portable_parent]
      rfl
  unfold compress_parents_parallel
  simp only [if_neg hfits,
    blake3_hash_many_eq htarget Nat.one_pos (length_of_mem_parent_blocks cvs), hlayer]

/-- Up to as many chunks as the degree, the wide function returns the leaves. -/
theorem compress_subtree_wide_chunks {input : List UInt8} (hpos : 0 < input.length)
    (hfew : input.length ≤ blake3_simd_degree target * BLAKE3_CHUNK_LEN) (index : Nat) :
    ∃ ts, blake3_compress_subtree_wide target input key (UInt64.ofNat index) flags =
        some (ts.map (treeCv key flags)) ∧
      Wide (blake3_simd_degree target) (hashTree index input) ts := by
  obtain ⟨j, hdegree, hmax⟩ := blake3_simd_degree_spec target
  have hleaves : (hashTree index input).size ≤ blake3_simd_degree target := by
    rw [size_hashTree]
    have hdegree_pos := blake3_simd_degree_pos target
    unfold BLAKE3_CHUNK_LEN at *
    omega
  have hroom : input.length ≤ target.MAX_SIMD_DEGREE * BLAKE3_CHUNK_LEN :=
    hfew.trans (Nat.mul_le_mul_right _ (by omega))
  refine ⟨_, ?_, (complete_hashTree index input).wide_leaves hleaves⟩
  rw [blake3_compress_subtree_wide, if_pos hfew,
    compress_chunks_parallel_eq htarget key flags hpos hroom, leaves_hashTree, List.map_map]
  rfl

/-- Above that, it makes a row of the node from the rows of the two children. -/
theorem compress_subtree_wide_node {input : List UInt8} (hsize : input.length < 2 ^ 64)
    (hmore : ¬ input.length ≤ blake3_simd_degree target * BLAKE3_CHUNK_LEN) (index : Nat)
    {ls rs : List (LeafTree Chunk)}
    (hls : blake3_compress_subtree_wide target (input.take (leftChunks input * BLAKE3_CHUNK_LEN)) key
      (UInt64.ofNat index) flags = some (ls.map (treeCv key flags)))
    (hlwide : Wide (blake3_simd_degree target)
      (hashTree index (input.take (leftChunks input * BLAKE3_CHUNK_LEN))) ls)
    (hrs : blake3_compress_subtree_wide target (input.drop (leftChunks input * BLAKE3_CHUNK_LEN)) key
      (UInt64.ofNat (index + leftChunks input)) flags = some (rs.map (treeCv key flags)))
    (hrwide : Wide (blake3_simd_degree target) (hashTree (index + leftChunks input)
      (input.drop (leftChunks input * BLAKE3_CHUNK_LEN))) rs) :
    ∃ ts, blake3_compress_subtree_wide target input key (UInt64.ofNat index) flags =
        some (ts.map (treeCv key flags)) ∧
      Wide (blake3_simd_degree target) (hashTree index input) ts := by
  obtain ⟨j, hdegree, hmax⟩ := blake3_simd_degree_spec target
  have hdegree_pos := blake3_simd_degree_pos target
  have hchunk : 0 < BLAKE3_CHUNK_LEN := Nat.zero_lt_succ _
  have hlarge : input.length > BLAKE3_CHUNK_LEN := by
    unfold BLAKE3_CHUNK_LEN at *
    omega
  obtain ⟨hlsize, hrsize⟩ := size_children hlarge index
  have hcomplete := complete_hashTree index input
  have hmany : blake3_simd_degree target < (hashTree index input).size := by
    rw [size_hashTree]
    unfold BLAKE3_CHUNK_LEN at *
    omega
  have hrooms := max_degree_le target
  rw [hashTree_node hlarge] at hcomplete hmany ⊢
  generalize hashTree index (input.take (leftChunks input * BLAKE3_CHUNK_LEN)) = l at *
  generalize hashTree (index + leftChunks input)
    (input.drop (leftChunks input * BLAKE3_CHUNK_LEN)) = r at *
  have hlpow : l.size = 2 ^ ((input.length - 1) / BLAKE3_CHUNK_LEN).log2 := hlsize
  rw [blake3_compress_subtree_wide, if_neg hmore]
  simp only [left_subtree_len_eq (Nat.zero_lt_of_lt hlarge) hsize, Nat.mul_div_cancel _ hchunk,
    ← UInt64.ofNat_add, hls, hrs]
  have hllength : (ls.map (treeCv key flags)).length = ls.length := List.length_map _
  have hrlength : (rs.map (treeCv key flags)).length = rs.length := List.length_map _
  have hlle := hlwide.length_le
  have hrle := hrwide.length_le
  obtain ⟨b, c, hb, hc, hholds⟩ := Buffer.holds_halves (ls.map (treeCv key flags))
    (rs.map (treeCv key flags)) (show _ ≤ 2 * target.MAX_SIMD_DEGREE_OR_2 by omega)
  have hall : c.read (ls.length + rs.length) = some ((ls ++ rs).map (treeCv key flags)) := by
    have hread := hholds.read (n := ls.length + rs.length)
      (by rw [List.length_append]; omega)
    rw [List.map_append, hread, List.take_of_length_le (by rw [List.length_append]; omega)]
  rw [hllength] at hc
  obtain ⟨hone, hdegree_one, hl_one, hr_one, hwide⟩ | ⟨htwo, hl_max, hwide⟩ :=
    hlwide.children hrwide hdegree hcomplete hlpow (hrsize.trans hlsize.ge) hmany
  · -- two chunks at degree 1: both values are returned as they are
    refine ⟨ls ++ rs, ?_, hwide⟩
    have hoffset : (if leftChunks input * BLAKE3_CHUNK_LEN > BLAKE3_CHUNK_LEN ∧
        blake3_simd_degree target = 1 then 2 else blake3_simd_degree target) = ls.length := by
      rw [← hlsize, hone, Nat.one_mul, if_neg (fun h => Nat.lt_irrefl _ h.1)]
      omega
    rw [hl_one] at hc
    rw [hl_one, hr_one] at hall
    simp only [Option.bind_eq_bind, Option.bind_some, hb, hoffset, hc, hllength, hl_one, if_true]
    exact hall
  · refine ⟨pairs LeafTree.node (ls ++ rs), ?_, hwide⟩
    have hoffset : (if leftChunks input * BLAKE3_CHUNK_LEN > BLAKE3_CHUNK_LEN ∧
        blake3_simd_degree target = 1 then 2 else blake3_simd_degree target) = ls.length := by
      have hgreater : leftChunks input * BLAKE3_CHUNK_LEN > BLAKE3_CHUNK_LEN := by
        unfold BLAKE3_CHUNK_LEN
        omega
      split_ifs
      · omega
      · omega
    have hnot_one : ¬ ls.length = 1 := by omega
    simp only [Option.bind_eq_bind, Option.bind_some, hb, hoffset, hc, hllength, hrlength,
      if_neg hnot_one, hall]
    rw [compress_parents_parallel_eq htarget key flags
      (by rw [List.length_map, List.length_append]; omega),
      pairs_map (treeCv key flags) (treeCv_node key flags)]

/-- Whatever the degree, the wide function computes a row of the hash tree. No array
overflows, and no cell is read before it is written. -/
theorem compress_subtree_wide_spec {input : List UInt8} (hpos : 0 < input.length)
    (hsize : input.length < 2 ^ 64) (index : Nat) :
    ∃ ts, blake3_compress_subtree_wide target input key (UInt64.ofNat index) flags =
        some (ts.map (treeCv key flags)) ∧
      Wide (blake3_simd_degree target) (hashTree index input) ts := by
  induction hn : input.length using Nat.strong_induction_on generalizing input index with
  | _ n ih =>
    subst hn
    by_cases hfew : input.length ≤ blake3_simd_degree target * BLAKE3_CHUNK_LEN
    · exact compress_subtree_wide_chunks htarget key flags hpos hfew index
    · have hlarge : input.length > BLAKE3_CHUNK_LEN := by
        have hdegree_pos := blake3_simd_degree_pos target
        unfold BLAKE3_CHUNK_LEN at *
        omega
      obtain ⟨hleft_pos, hleft_lt, _⟩ := leftChunks_spec hlarge
      have hleft : (input.take (leftChunks input * BLAKE3_CHUNK_LEN)).length =
          leftChunks input * BLAKE3_CHUNK_LEN := List.length_take_of_le hleft_lt.le
      have hright : (input.drop (leftChunks input * BLAKE3_CHUNK_LEN)).length =
          input.length - leftChunks input * BLAKE3_CHUNK_LEN := List.length_drop
      have hbytes : 0 < leftChunks input * BLAKE3_CHUNK_LEN :=
        Nat.mul_pos hleft_pos (Nat.zero_lt_succ _)
      obtain ⟨ls, hls, hlwide⟩ := ih (input.take (leftChunks input * BLAKE3_CHUNK_LEN)).length
        (by omega) (by omega) (by omega) index rfl
      obtain ⟨rs, hrs, hrwide⟩ := ih (input.drop (leftChunks input * BLAKE3_CHUNK_LEN)).length
        (by omega) (by omega) (by omega) (index + leftChunks input) rfl
      exact compress_subtree_wide_node htarget key flags hsize hfew index hls hlwide hrs hrwide

theorem condense_of_lt {cvs : List (Vector UInt8 32)} (hlarge : cvs.length > 2)
    (hsize : cvs.length ≤ target.MAX_SIMD_DEGREE_OR_2) :
    condense target cvs key flags = condense target (pairs (parentCv key flags) cvs) key flags := by
  have heven := even_MAX_SIMD_DEGREE_OR_2 target
  have hlayer : compress_parents_parallel target cvs key flags =
      some (pairs (parentCv key flags) cvs) :=
    compress_parents_parallel_eq htarget key flags (by omega)
  have hfits : ¬ (pairs (parentCv key flags) cvs).length > target.MAX_SIMD_DEGREE_OR_2 / 2 := by
    rw [length_pairs]
    omega
  rw [condense.eq_def, if_pos hlarge]
  split
  · next hnone => exact absurd (hlayer.symm.trans hnone) (Option.some_ne_none _)
  · next out hout =>
    obtain rfl : pairs (parentCv key flags) cvs = out := Option.some.inj (hlayer.symm.trans hout)
    rw [if_neg hfits]

/-- Layers of parents over a row leave the chaining values of the two children. -/
theorem condense_spec {t : LeafTree Chunk} {ts : List (LeafTree Chunk)} (hrow : Row t ts)
    (htwo : 2 ≤ ts.length) (hsize : ts.length ≤ target.MAX_SIMD_DEGREE_OR_2) :
    ∃ l r, t = .node l r ∧ condense target (ts.map (treeCv key flags)) key flags =
      some [treeCv key flags l, treeCv key flags r] := by
  induction hn : ts.length using Nat.strong_induction_on generalizing ts with
  | _ n ih =>
    subst hn
    have hlength : (ts.map (treeCv key flags)).length = ts.length := List.length_map _
    by_cases hlarge : ts.length > 2
    · have hpairs : (pairs LeafTree.node ts).length = (ts.length + 1) / 2 :=
        length_pairs LeafTree.node ts
      rw [condense_of_lt htarget key flags (hlength.symm ▸ hlarge) (hlength.symm ▸ hsize),
        pairs_map (treeCv key flags) (treeCv_node key flags)]
      exact ih (pairs LeafTree.node ts).length (by omega) hrow.pairs (by omega) (by omega) rfl
    · obtain ⟨l, r, rfl⟩ := List.length_eq_two.mp (Nat.le_antisymm (Nat.not_lt.mp hlarge) htwo)
      refine ⟨l, r, hrow.eq_node, ?_⟩
      rw [condense, if_neg (by rw [hlength]; exact hlarge)]
      rfl

/-- The root of the subtree is never compressed: its two children come back, at every
degree, and no assertion fails on the way. -/
theorem compress_subtree_to_parent_node_eq {input : List UInt8}
    (hlarge : BLAKE3_CHUNK_LEN < input.length) (hsize : input.length < 2 ^ 64) (index : Nat) :
    compress_subtree_to_parent_node target input key (UInt64.ofNat index) flags =
      some (treeCv key flags (hashTree index (input.take (leftChunks input * BLAKE3_CHUNK_LEN))),
        treeCv key flags (hashTree (index + leftChunks input)
          (input.drop (leftChunks input * BLAKE3_CHUNK_LEN)))) := by
  obtain ⟨ts, hts, hwide⟩ := compress_subtree_wide_spec htarget key flags
    (Nat.zero_lt_of_lt hlarge) hsize index
  have hlength : (ts.map (treeCv key flags)).length = ts.length := List.length_map _
  have hrooms := max_degree_le target
  have hle := hwide.length_le
  have htwo : 2 ≤ ts.length := by
    apply hwide.two_le
    rw [size_hashTree]
    unfold BLAKE3_CHUNK_LEN at *
    omega
  obtain ⟨l, r, hnode, hcondense⟩ := condense_spec htarget key flags hwide.row htwo (by omega)
  rw [hashTree_node hlarge] at hnode
  obtain ⟨rfl, rfl⟩ := LeafTree.node.inj hnode
  have hskip : ¬ (ts.map (treeCv key flags)).length > target.MAX_SIMD_DEGREE_OR_2 := by omega
  unfold compress_subtree_to_parent_node
  simp only [hts, Option.bind_eq_bind, Option.bind_some, if_neg hskip]
  split_ifs with hmore
  · rw [hcondense]
    rfl
  · rw [condense, if_neg (by omega)] at hcondense
    rw [Option.some.inj hcondense]

/-- Whatever the degrees of two targets, they condense the same subtree to the same two
values, which are those under its root. -/
theorem compress_subtree_to_parent_node_agree {target' : Target} (htarget' : target'.Conforms)
    {input : List UInt8} (hlarge : BLAKE3_CHUNK_LEN < input.length) (hsize : input.length < 2 ^ 64)
    (counter : UInt64) :
    ∃ left right,
      compress_subtree_to_parent_node target input key counter flags = some (left, right) ∧
      compress_subtree_to_parent_node target' input key counter flags = some (left, right) ∧
      parentCv key flags left right = treeCv key flags (hashTree counter.toNat input) := by
  have hpair {target : Target} (htarget : target.Conforms) :=
    compress_subtree_to_parent_node_eq htarget key flags hlarge hsize counter.toNat
  rw [UInt64.ofNat_toNat] at hpair
  refine ⟨_, _, hpair htarget, hpair htarget', ?_⟩
  rw [hashTree_node hlarge, treeCv_node]

end

theorem compress_subtree_to_parent_node_agree_chunks :
    ∃ left right,
      compress_subtree_to_parent_node portableTarget (List.replicate 5000 7) IV 3 0 =
        some (left, right) ∧
      compress_subtree_to_parent_node vectorTarget (List.replicate 5000 7) IV 3 0 =
        some (left, right) ∧
      parentCv IV 0 left right = treeCv IV 0 (hashTree 3 (List.replicate 5000 7)) :=
  compress_subtree_to_parent_node_agree portableTarget_conforms IV 0 vectorTarget_conforms
    (by rw [List.length_replicate]; decide) (by rw [List.length_replicate]; decide) 3

end ryefs
