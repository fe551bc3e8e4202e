import RyeFs.Blake3.Compress
import RyeFs.Blake3.Update
import RyeFs.Lib.Words

open bits hashtree windows words

namespace ryefs

/-- A block of the extended output is a window of the stream of root bytes. -/
theorem toList_compress_xof (root : output_t) (counter : UInt64) {start : Nat}
    (hstart : start = 64 * counter.toNat) :
    (blake3_compress_xof_portable root.input_cv root.block root.block_len counter
      (root.flags ||| ROOT)).toList = window (rootByte root) start 64 := by
  rw [hstart]
  apply List.ext_getElem
  · simp
  · intro i hi _
    have hlt : i < 64 := by simpa using hi
    have hblock : UInt64.ofNat ((64 * counter.toNat + i) / 64) = counter := by
      rw [← UInt64.toNat_inj, UInt64.toNat_ofNat']
      have hcounter := counter.toNat_lt
      omega
    have hplace : (64 * counter.toNat + i) % 64 = i := by omega
    simp only [window, rootByte, List.getElem_map, List.getElem_range, Vector.getElem_toList, hblock,
      hplace]

theorem xof_many_eq {target : Target} (htarget : target.Conforms) (root : output_t) {counter : UInt64}
    {n start : Nat} (hstart : start = 64 * counter.toNat) (hwrap : counter.toNat + n ≤ 2 ^ 64) :
    blake3_xof_many target root.input_cv root.block root.block_len counter (root.flags ||| ROOT) n =
      window (rootByte root) start (n * 64) := by
  rw [window_mul, blake3_xof_many_eq htarget]
  apply List.flatMap_congr
  intro i hi
  rw [List.mem_range] at hi
  apply toList_compress_xof
  rw [UInt64.toNat_add, UInt64.toNat_ofNat']
  omega

theorem and_neg_64 (len : UInt64) : (len - (len &&& -64)).toNat = len.toNat % 64 := by
  have hmask : (len &&& -64).toNat = len.toNat - len.toNat % 2 ^ 6 := by
    rw [UInt64.toNat_and]
    exact and_upper_mask (v := 58) len.toNat_lt
  have hle := Nat.mod_le len.toNat (2 ^ 6)
  rw [UInt64.toNat_sub_of_le _ _ (UInt64.le_iff_toNat_le.mpr (by omega)), hmask]
  omega

/-- Whole blocks and the beginning of one more. -/
theorem blocks_and_tail {target : Target} (htarget : target.Conforms) (root : output_t)
    (counter len : UInt64) (start : Nat)
    (hstart : len.toNat ≠ 0 → start = 64 * counter.toNat)
    (hwrap : counter.toNat + len.toNat / 64 < 2 ^ 64) :
    (if len / 64 ≠ 0 then
        blake3_xof_many target root.input_cv root.block root.block_len counter (root.flags ||| ROOT)
          (len / 64).toNat
      else []) ++
      (if len - (len &&& -64) ≠ 0 then
        (blake3_compress_xof target root.input_cv root.block root.block_len (counter + len / 64)
          (root.flags ||| ROOT)).toList.take (len - (len &&& -64)).toNat
      else []) = window (rootByte root) start len.toNat := by
  have hdiv : (len / 64).toNat = len.toNat / 64 := UInt64.toNat_div ..
  have htail := and_neg_64 len
  have hsplit : len.toNat = len.toNat / 64 * 64 + len.toNat % 64 := (Nat.div_add_mod' ..).symm
  have hno_block : len / 64 = 0 ↔ len.toNat / 64 = 0 := by
    rw [← hdiv, toNat_eq_zero_iff]
  have hno_tail : len - (len &&& -64) = 0 ↔ len.toNat % 64 = 0 := by
    rw [← htail, toNat_eq_zero_iff]
  have hblocks : (if len / 64 ≠ 0 then
      blake3_xof_many target root.input_cv root.block root.block_len counter (root.flags ||| ROOT)
        (len / 64).toNat
      else []) = window (rootByte root) start (len.toNat / 64 * 64) := by
    by_cases hzero : len / 64 = 0
    · rw [if_neg (not_not.mpr hzero), hno_block.mp hzero]
      rfl
    · have hsome : len.toNat ≠ 0 := by
        intro hnil
        rw [hno_block, hnil] at hzero
        exact hzero rfl
      rw [if_pos hzero, hdiv]
      exact xof_many_eq htarget root (hstart hsome) hwrap.le
  rw [hblocks]
  conv_rhs => rw [hsplit, window_add]
  congr 1
  by_cases hzero : len - (len &&& -64) = 0
  · rw [if_neg (not_not.mpr hzero), hno_tail.mp hzero]
    rfl
  · have hsome : len.toNat % 64 ≠ 0 := fun hnil => hzero (hno_tail.mpr hnil)
    have hnext : start + len.toNat / 64 * 64 = 64 * (counter + len / 64).toNat := by
      rw [UInt64.toNat_add, hdiv, hstart (by omega)]
      omega
    rw [if_pos hzero, blake3_compress_xof_eq htarget, toList_compress_xof root _ hnext, htail,
      take_window (by omega)]

/-- The extended output is a window of the stream of root bytes, wherever it starts and
ends in a block. -/
theorem output_root_bytes_eq {target : Target} (htarget : target.Conforms) (self : output_t)
    (seek out_len : UInt64) :
    output_root_bytes target self seek out_len = window (rootByte self) seek.toNat out_len.toNat := by
  have hseek := seek.toNat_lt
  have hlen := out_len.toNat_lt
  have hcounter : (seek / 64).toNat = seek.toNat / 64 := UInt64.toNat_div ..
  have hoffset : (seek % 64).toNat = seek.toNat % 64 := UInt64.toNat_mod ..
  have haligned_iff : seek % 64 = 0 ↔ seek.toNat % 64 = 0 := by
    rw [← hoffset, toNat_eq_zero_iff]
  unfold output_root_bytes
  by_cases hempty : out_len = 0
  · rw [if_pos hempty, hempty]
    rfl
  rw [if_neg hempty]
  by_cases haligned : seek % 64 = 0
  · have hzero := haligned_iff.mp haligned
    simp only [if_neg (not_not.mpr haligned), List.nil_append]
    exact blocks_and_tail htarget self _ _ _ (fun _ => by omega) (by omega)
  · have hpos : seek.toNat % 64 ≠ 0 := fun hnil => haligned (haligned_iff.mpr hnil)
    have havailable : (64 - seek % 64).toNat = 64 - seek.toNat % 64 := by
      rw [UInt64.toNat_sub_of_le _ _ (UInt64.le_iff_toNat_le.mpr (by rw [hoffset]; exact
        (Nat.mod_lt _ (by omega)).le)), hoffset]
      rfl
    simp only [if_pos haligned]
    set bytes := if out_len > 64 - seek % 64 then 64 - seek % 64 else out_len with hbytes
    have hmin : bytes.toNat = min (64 - seek.toNat % 64) out_len.toNat := by
      rw [hbytes]
      split_ifs with hmore
      · rw [gt_iff_lt, UInt64.lt_iff_toNat_lt] at hmore
        omega
      · rw [gt_iff_lt, UInt64.lt_iff_toNat_lt] at hmore
        omega
    have hleft : (out_len - bytes).toNat = out_len.toNat - bytes.toNat :=
      UInt64.toNat_sub_of_le _ _ (UInt64.le_iff_toNat_le.mpr (by omega))
    have hnext : (seek / 64 + 1).toNat = seek.toNat / 64 + 1 := by
      rw [UInt64.toNat_add, hcounter, UInt64.toNat_one]
      omega
    have hstart : 64 * (seek / 64).toNat + seek.toNat % 64 = seek.toNat := by omega
    have hhead := toList_compress_xof self (seek / 64) rfl
    rw [← blake3_compress_xof_eq htarget] at hhead
    have htail := blocks_and_tail htarget self (seek / 64 + 1) (out_len - bytes)
      (seek.toNat + bytes.toNat) (by omega) (by omega)
    rw [hhead, hoffset, drop_window (by omega), take_window (by omega), hstart, List.append_assoc,
      htail, ← window_add, hleft, Nat.add_sub_cancel' (by omega)]

section

variable {key : Vector UInt32 8} {flags : UInt8}

theorem finalize_loop_spec {target : Target} (htarget : target.Conforms) (t : LeafTree Chunk)
    (stack : List (LeafTree Chunk)) :
    finalize_loop target key flags (treeOutput key flags t) (stack.map (treeCv key flags)) =
      treeOutput key flags (fold stack t) := by
  unfold finalize_loop fold
  simp only [output_chaining_value_eq htarget]
  induction stack generalizing t with
  | nil => rfl
  | cons l rest ih =>
    rw [List.map_cons, List.foldl_cons, List.foldl_cons]
    exact ih (.node l t)

/-- With bytes in the chunk state, the stack is folded onto the last chunk. -/
theorem Absorbed.fold_eq {self : blake3_hasher} {front rest : List UInt8} {n : Nat}
    {stack : List (LeafTree Chunk)} (h : Absorbed key flags self front rest n stack)
    (hrest : rest ≠ []) :
    fold stack (.leaf ⟨n, rest⟩) = hashTree 0 (front ++ rest) := by
  have hroom : Carries (LeafTree.leaf (⟨n, rest⟩ : Chunk)).size stack := h.merged hrest
  apply eq_hashTree (hroom.complete_fold (Complete.leaf _))
  rw [leaves_fold, h.leaves, chunksFrom_append h.length hrest, Nat.zero_add,
    chunksFrom_of_le h.rest_le]
  rfl

/-- Without any, it is folded onto the parent of its top two entries. -/
theorem Absorbed.fold_top_eq {self : blake3_hasher} {front : List UInt8} {n : Nat}
    {right left : LeafTree Chunk} {stack : List (LeafTree Chunk)}
    (h : Absorbed key flags self front [] n (right :: left :: stack)) :
    fold stack (.node left right) = hashTree 0 front := by
  obtain ⟨hright, _, hleft, hle, hstack⟩ := h.carries
  rw [Nat.zero_add] at hle hstack
  obtain ⟨k, hk⟩ := hleft.size
  have hnode : Complete (.node left right) :=
    Complete.node k hleft.complete hk hright.complete (hk ▸ hle)
  have hsize := h.size
  have hpos := right.size_pos
  simp only [stackSize_cons] at hsize
  obtain ⟨m, rfl⟩ := Nat.exists_eq_add_one_of_ne_zero (show n ≠ 0 by omega)
  rw [Nat.add_comm, ← LeafTree.size_node] at hstack
  apply eq_hashTree (hstack.complete_fold hnode)
  rw [leaves_fold, chunksFrom_eq_leadingChunks h.length, ← h.leaves]
  simp only [stackLeaves, LeafTree.leaves, List.append_assoc]

/-- The query lemma of the hasher: finalization always finds what it reads on the
stack, and gives the window of the hash of what was taken in. -/
theorem Represents.finalize_seek {target : Target} (htarget : target.Conforms) {self : blake3_hasher}
    {bytes : List UInt8} (h : Represents key flags self bytes) (seek out_len : UInt64) :
    blake3_hasher_finalize_seek target self seek out_len =
      some (hashWindow key flags bytes seek.toNat out_len.toNat) := by
  obtain ⟨front, rest, n, stack, rfl, hself⟩ := h
  unfold blake3_hasher_finalize_seek hashWindow
  by_cases hempty : out_len = 0
  · rw [if_pos hempty, hempty]
    rfl
  rw [if_neg hempty]
  have hdepth : self.cv_stack_len = stack.length := by
    rw [blake3_hasher.cv_stack_len, hself.stack_eq, List.length_map]
  have houtput : chunk_state_output self.chunk = treeOutput key flags (.leaf ⟨n, rest⟩) := by
    rw [hself.chunk_eq, chunk_state_output_chunkAt key flags n hself.rest_le]
    rfl
  cases stack with
  | nil =>
    have hzero : n = 0 := hself.size.symm
    obtain rfl : front = [] := by
      apply List.length_eq_zero_iff.mp
      rw [hself.length, hzero, Nat.zero_mul]
    have hroot : hashTree 0 ([] ++ rest) = .leaf ⟨n, rest⟩ := by
      rw [List.nil_append, hashTree, if_neg (Nat.not_lt.mpr hself.rest_le), hzero]
    rw [hdepth, List.length_nil, if_pos rfl, houtput, hroot, output_root_bytes_eq htarget]
    rfl
  | cons right below =>
    rw [hdepth, List.length_cons, if_neg (Nat.add_one_ne_zero _), hself.chunk_state_len]
    by_cases hrest : rest.length > 0
    · simp only [if_pos hrest, houtput, hself.key_eq, hself.flags_eq, hself.stack_eq]
      rw [finalize_loop_spec htarget, hself.fold_eq (List.length_pos_iff.mp hrest),
        output_root_bytes_eq htarget]
      rfl
    · obtain rfl : rest = [] := List.length_eq_zero_iff.mp (Nat.eq_zero_of_not_pos hrest)
      obtain ⟨left, stack, rfl⟩ : ∃ left stack, below = left :: stack := by
        obtain hnil | htwo := hself.nil_or_two_le
        · exact absurd hnil (List.cons_ne_nil right below)
        · exact List.exists_cons_of_ne_nil (List.length_pos_iff.mp (Nat.le_of_succ_le_succ htwo))
      have hchildren : self.cv_stack = treeCv key flags right :: treeCv key flags left ::
          stack.map (treeCv key flags) := hself.stack_eq
      rw [if_neg hrest, hchildren, hself.key_eq, hself.flags_eq]
      change some (output_root_bytes target (finalize_loop target key flags
        (treeOutput key flags (.node left right)) _) seek out_len) = _
      rw [finalize_loop_spec htarget, hself.fold_top_eq, List.append_nil, output_root_bytes_eq htarget]

end

/-- What a finalization reads does not depend on where the client starts reading or
how much it asks for. -/
theorem finalize_seek_cases {target : Target} (htarget : target.Conforms) (self : blake3_hasher) :
    (∃ root, ∀ seek out_len, blake3_hasher_finalize_seek target self seek out_len =
      some (window (rootByte root) seek.toNat out_len.toNat)) ∨
    ∀ seek out_len, blake3_hasher_finalize_seek target self seek out_len =
      if out_len = 0 then some [] else none := by
  have hwindow (root : output_t) (seek out_len : UInt64) :
      (if out_len = 0 then some [] else some (output_root_bytes target root seek out_len)) =
        some (window (rootByte root) seek.toNat out_len.toNat) := by
    by_cases hempty : out_len = 0
    · rw [if_pos hempty, hempty]
      rfl
    · rw [if_neg hempty, output_root_bytes_eq htarget]
  unfold blake3_hasher_finalize_seek
  by_cases hroot : self.cv_stack_len = 0
  · exact .inl ⟨_, fun seek out_len => by simp only [if_pos hroot]; exact hwindow _ seek out_len⟩
  by_cases hchunk : chunk_state_len self.chunk > 0
  · exact .inl ⟨_, fun seek out_len => by
      simp only [if_neg hroot, if_pos hchunk]
      exact hwindow _ seek out_len⟩
  simp only [if_neg hroot, if_neg hchunk]
  cases self.cv_stack with
  | nil => exact .inr fun _ _ => rfl
  | cons right below =>
    cases below with
    | nil => exact .inr fun _ _ => rfl
    | cons left rest => exact .inl ⟨_, fun seek out_len => hwindow _ seek out_len⟩

/-- Reading on from where the last read ended gives the same bytes as one longer read,
whether or not the reads end with a block. -/
theorem finalize_seek_append {target : Target} (htarget : target.Conforms) (self : blake3_hasher)
    {seek len len' : UInt64} {out out' : List UInt8}
    (hfirst : blake3_hasher_finalize_seek target self seek len = some out)
    (hnext : blake3_hasher_finalize_seek target self (seek + len) len' = some out')
    (hwrap : seek.toNat + len.toNat + len'.toNat < 2 ^ 64) :
    blake3_hasher_finalize_seek target self seek (len + len') = some (out ++ out') := by
  have hsum : (len + len').toNat = len.toNat + len'.toNat := by
    rw [UInt64.toNat_add]
    omega
  have hstart : (seek + len).toNat = seek.toNat + len.toNat := by
    rw [UInt64.toNat_add]
    omega
  obtain ⟨root, hroot⟩ | hnone := finalize_seek_cases htarget self
  · rw [hroot] at hfirst hnext ⊢
    rw [← Option.some.inj hfirst, ← Option.some.inj hnext, hsum, hstart, window_add]
  · rw [hnone] at hfirst hnext ⊢
    obtain ⟨rfl, hout⟩ := Option.ite_none_right_eq_some.mp hfirst
    obtain ⟨rfl, hout'⟩ := Option.ite_none_right_eq_some.mp hnext
    rw [← Option.some.inj hout, ← Option.some.inj hout']
    rfl

/-- The empty hash, read in two parts that do not end with a block. -/
theorem finalize_seek_append_empty :
    ∃ out out', blake3_hasher_finalize_seek vectorTarget blake3_hasher_init 10 20 = some out ∧
      blake3_hasher_finalize_seek vectorTarget blake3_hasher_init (10 + 20) 100 = some out' ∧
      blake3_hasher_finalize_seek vectorTarget blake3_hasher_init 10 (20 + 100) =
        some (out ++ out') :=
  ⟨_, _, rfl, rfl,
    finalize_seek_append vectorTarget_conforms blake3_hasher_init rfl rfl (by decide)⟩

/-- No two whole blocks of one extended output are the same. -/
theorem finalize_seek_block_ne {target : Target} (htarget : target.Conforms) (self : blake3_hasher)
    {i j : Nat} (hi : i < 2 ^ 58) (hj : j < 2 ^ 58) (hne : i ≠ j) {out : List UInt8}
    (h : blake3_hasher_finalize_seek target self (UInt64.ofNat (64 * i)) 64 = some out) :
    blake3_hasher_finalize_seek target self (UInt64.ofNat (64 * j)) 64 ≠ some out := by
  have hseek {n : Nat} (hn : n < 2 ^ 58) :
      (UInt64.ofNat (64 * n)).toNat = 64 * (UInt64.ofNat n).toNat := by
    rw [UInt64.toNat_ofNat', UInt64.toNat_ofNat']
    omega
  intro h'
  obtain ⟨root, hroot⟩ | hnone := finalize_seek_cases htarget self
  · rw [hroot] at h h'
    have hwindow := Option.some.inj (h.trans h'.symm)
    rw [show (64 : UInt64).toNat = 64 from rfl, ← toList_compress_xof root _ (hseek hi),
      ← toList_compress_xof root _ (hseek hj)] at hwindow
    obtain ⟨_, hcounter, _⟩ := compress_xof_injective (Vector.toList_inj.mp hwindow)
    have hcounter := congrArg UInt64.toNat hcounter
    rw [UInt64.toNat_ofNat', UInt64.toNat_ofNat'] at hcounter
    omega
  · rw [hnone, if_neg (by decide)] at h
    exact absurd h.symm (Option.some_ne_none out)

theorem finalize_seek_block_ne_empty :
    ∃ out, blake3_hasher_finalize_seek vectorTarget blake3_hasher_init 0 64 = some out ∧
      blake3_hasher_finalize_seek vectorTarget blake3_hasher_init (64 * 7) 64 ≠ some out :=
  ⟨_, rfl, finalize_seek_block_ne vectorTarget_conforms blake3_hasher_init (i := 0) (j := 7)
    (by decide) (by decide) (by decide) rfl⟩

end ryefs
