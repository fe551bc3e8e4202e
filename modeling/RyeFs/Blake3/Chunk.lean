import RyeFs.Blake3.Spec

namespace ryefs

theorem getElem_block_at (input : List UInt8) (i : Nat) (hi : i < 64) :
    (block_at input)[i] = input.getD i 0 := by
  simp [block_at]

theorem block_at_nil : block_at [] = Vector.replicate 64 0 := by
  ext i hi
  simp [getElem_block_at]

/-- Only the first 64 bytes matter. -/
theorem block_at_append {front : List UInt8} (hfront : 64 ≤ front.length) (rest : List UInt8) :
    block_at (front ++ rest) = block_at front := by
  ext i hi
  rw [getElem_block_at, getElem_block_at, List.getD_append _ _ _ _ (by omega)]

/-- The state with the bytes in its buffer, zeros behind them. -/
def blake3_chunk_state.buffered (self : blake3_chunk_state) (bytes : List UInt8) :
    blake3_chunk_state :=
  { self with buf := block_at bytes, buf_len := UInt8.ofNat bytes.length }

@[simp] theorem buffered_cv (self : blake3_chunk_state) (bytes : List UInt8) :
    (self.buffered bytes).cv = self.cv := by
  unfold blake3_chunk_state.buffered
  rfl

@[simp] theorem buffered_chunk_counter (self : blake3_chunk_state) (bytes : List UInt8) :
    (self.buffered bytes).chunk_counter = self.chunk_counter := by
  unfold blake3_chunk_state.buffered
  rfl

@[simp] theorem buffered_blocks_compressed (self : blake3_chunk_state) (bytes : List UInt8) :
    (self.buffered bytes).blocks_compressed = self.blocks_compressed := by
  unfold blake3_chunk_state.buffered
  rfl

@[simp] theorem buffered_flags (self : blake3_chunk_state) (bytes : List UInt8) :
    (self.buffered bytes).flags = self.flags := by
  unfold blake3_chunk_state.buffered
  rfl

theorem toNat_buf_len_buffered (self : blake3_chunk_state) {bytes : List UInt8}
    (hbytes : bytes.length ≤ 64) : (self.buffered bytes).buf_len.toNat = bytes.length := by
  change (UInt8.ofNat bytes.length).toNat = _
  rw [UInt8.toNat_ofNat']
  omega

/-- What the copy into the buffer leaves at its place `i`. -/
theorem getD_append_take (bytes input : List UInt8) {i : Nat} (hi : i < 64) :
    (bytes ++ input.take (64 - bytes.length)).getD i 0 =
      if bytes.length ≤ i ∧ i < bytes.length + min (64 - bytes.length) input.length then
        input.getD (i - bytes.length) 0
      else bytes.getD i 0 := by
  by_cases hold : i < bytes.length
  · rw [List.getD_append _ _ _ _ hold, if_neg (by omega)]
  · rw [List.getD_append_right _ _ _ _ (by omega), List.getD_eq_default bytes _ (by omega),
      List.getD_eq_getElem?_getD, List.getElem?_take, if_pos (by omega), List.getD_eq_getElem?_getD]
    by_cases hnew : i < bytes.length + min (64 - bytes.length) input.length
    · rw [if_pos ⟨by omega, hnew⟩]
    · rw [if_neg (by omega), List.getElem?_eq_none (by omega)]
      rfl

theorem chunk_state_fill_buf_buffered (self : blake3_chunk_state) {bytes : List UInt8}
    (hbytes : bytes.length ≤ 64) (input : List UInt8) :
    chunk_state_fill_buf (self.buffered bytes) input =
      (self.buffered (bytes ++ input.take (64 - bytes.length)),
        min (64 - bytes.length) input.length) := by
  have htake : (if BLAKE3_BLOCK_LEN - bytes.length > input.length then input.length
      else BLAKE3_BLOCK_LEN - bytes.length) = min (64 - bytes.length) input.length := by
    unfold BLAKE3_BLOCK_LEN
    split_ifs
    · omega
    · omega
  have hbuf : (Vector.ofFn fun i : Fin 64 =>
      if bytes.length ≤ i.val ∧ i.val < bytes.length + min (64 - bytes.length) input.length then
        input.getD (i.val - bytes.length) 0
      else (block_at bytes)[i]) = block_at (bytes ++ input.take (64 - bytes.length)) := by
    apply Vector.ext
    intro i hi
    simp only [Vector.getElem_ofFn, Fin.getElem_fin, getElem_block_at]
    exact (getD_append_take bytes input hi).symm
  have hlen : UInt8.ofNat bytes.length + UInt8.ofNat (min (64 - bytes.length) input.length) =
      UInt8.ofNat (bytes ++ input.take (64 - bytes.length)).length := by
    rw [← UInt8.ofNat_add, List.length_append, List.length_take]
  unfold chunk_state_fill_buf
  simp only [toNat_buf_len_buffered self hbytes, htake]
  unfold blake3_chunk_state.buffered
  simp only [hbuf, hlen]

/-- The state after one more block of the chunk. -/
def blake3_chunk_state.compressed (self : blake3_chunk_state) (block : Vector UInt8 64) :
    blake3_chunk_state :=
  { self with
    cv := blake3_compress_in_place_portable self.cv block 64 self.chunk_counter
      (self.flags ||| chunk_state_maybe_start_flag self)
    blocks_compressed := self.blocks_compressed + 1 }

theorem maybe_start_flag_buffered (self : blake3_chunk_state) (bytes : List UInt8) :
    chunk_state_maybe_start_flag (self.buffered bytes) = chunk_state_maybe_start_flag self := by
  unfold chunk_state_maybe_start_flag
  rw [buffered_blocks_compressed]

theorem compressed_buffered (self : blake3_chunk_state) (bytes : List UInt8)
    (block : Vector UInt8 64) :
    (self.buffered bytes).compressed block = (self.compressed block).buffered bytes := by
  unfold blake3_chunk_state.compressed
  rw [maybe_start_flag_buffered]
  unfold blake3_chunk_state.buffered
  rfl

/-- The state of a chunk that has taken in the bytes, from the state before its
first one. The last block stays in the buffer. -/
def blake3_chunk_state.after (self : blake3_chunk_state) (bytes : List UInt8) :
    blake3_chunk_state :=
  if bytes.length > BLAKE3_BLOCK_LEN then
    (self.compressed (block_at bytes)).after (bytes.drop BLAKE3_BLOCK_LEN)
  else self.buffered bytes
termination_by bytes.length
decreasing_by
  unfold BLAKE3_BLOCK_LEN at *
  rw [List.length_drop]
  omega

theorem after_of_le (self : blake3_chunk_state) {bytes : List UInt8} (h : bytes.length ≤ 64) :
    self.after bytes = self.buffered bytes := by
  rw [blake3_chunk_state.after, if_neg (show ¬ bytes.length > BLAKE3_BLOCK_LEN from Nat.not_lt.mpr h)]

theorem after_of_lt (self : blake3_chunk_state) {bytes : List UInt8} (h : 64 < bytes.length) :
    self.after bytes = (self.compressed (block_at bytes)).after (bytes.drop 64) := by
  rw [blake3_chunk_state.after, if_pos (show bytes.length > BLAKE3_BLOCK_LEN from h)]
  rfl

section

variable {target : Target} (htarget : target.Conforms)

theorem chunk_state_update_blocks_of_le (self : blake3_chunk_state) {input : List UInt8}
    (h : input.length ≤ 64) : chunk_state_update_blocks target self input = (self, input) := by
  rw [chunk_state_update_blocks, if_neg (show ¬ input.length > BLAKE3_BLOCK_LEN from Nat.not_lt.mpr h)]

include htarget

theorem output_chaining_value_eq (c : output_t) :
    output_chaining_value target c = chainingValue c := by
  rw [output_chaining_value, blake3_compress_in_place_eq htarget]
  rfl

theorem chunk_state_update_blocks_of_lt (self : blake3_chunk_state) {input : List UInt8}
    (h : 64 < input.length) :
    chunk_state_update_blocks target self input =
      chunk_state_update_blocks target (self.compressed (block_at input)) (input.drop 64) := by
  rw [chunk_state_update_blocks, if_pos (show input.length > BLAKE3_BLOCK_LEN from h),
    blake3_compress_in_place_eq htarget]
  rfl

/-- From an empty buffer on, whole blocks are compressed and the last one is copied. -/
theorem chunk_state_update_clear (self : blake3_chunk_state) (bytes : List UInt8) :
    chunk_state_update target (self.buffered []) bytes = self.after bytes := by
  have hclear : ¬ (self.buffered []).buf_len > 0 := by
    change ¬ (0 : UInt8) < 0
    exact UInt8.lt_irrefl 0
  have hnil : ([] : List UInt8).length ≤ 64 := Nat.zero_le 64
  unfold chunk_state_update
  simp only [if_neg hclear]
  induction self, bytes using blake3_chunk_state.after.induct with
  | case1 self bytes hmore ih =>
    rw [chunk_state_update_blocks_of_lt htarget _ hmore, after_of_lt self hmore, compressed_buffered]
    exact ih hclear
  | case2 self bytes hless =>
    have hle : bytes.length ≤ 64 := Nat.not_lt.mp hless
    rw [chunk_state_update_blocks_of_le _ hle, chunk_state_fill_buf_buffered _ hnil, after_of_le _ hle,
      List.nil_append, List.length_nil, List.take_of_length_le hle]

/-- A full buffer is compressed and cleared. -/
theorem compressed_clear (self : blake3_chunk_state) (bytes : List UInt8) :
    { self.buffered bytes with
      cv := blake3_compress_in_place target (self.buffered bytes).cv (self.buffered bytes).buf 64
        (self.buffered bytes).chunk_counter
        ((self.buffered bytes).flags ||| chunk_state_maybe_start_flag (self.buffered bytes))
      blocks_compressed := (self.buffered bytes).blocks_compressed + 1
      buf_len := 0
      buf := Vector.replicate 64 0 } = (self.compressed (block_at bytes)).buffered [] := by
  rw [maybe_start_flag_buffered, blake3_compress_in_place_eq htarget]
  unfold blake3_chunk_state.compressed blake3_chunk_state.buffered
  rw [block_at_nil]
  rfl

/-- Input that meets bytes in the buffer continues where they ended. -/
theorem chunk_state_update_buffered (self : blake3_chunk_state) {bytes : List UInt8}
    (hpos : 0 < bytes.length) (hle : bytes.length ≤ 64) (input : List UInt8) :
    chunk_state_update target (self.buffered bytes) input = self.after (bytes ++ input) := by
  have hlen := toNat_buf_len_buffered self hle
  have hused : (self.buffered bytes).buf_len > 0 := by
    rw [gt_iff_lt, UInt8.lt_iff_toNat_lt, hlen]
    exact hpos
  unfold chunk_state_update
  simp only [if_pos hused, chunk_state_fill_buf_buffered self hle]
  by_cases hfits : bytes.length + input.length ≤ 64
  · have hall : (bytes ++ input).length ≤ 64 := by
      rw [List.length_append]
      exact hfits
    have hmin : min (64 - bytes.length) input.length = input.length := by omega
    have hnone : ¬ ([] : List UInt8).length > 0 := Nat.lt_irrefl 0
    have hnil : ([] : List UInt8).length ≤ 64 := Nat.zero_le 64
    simp only [hmin, List.drop_length, if_neg hnone,
      List.take_of_length_le (show input.length ≤ 64 - bytes.length by omega)]
    rw [chunk_state_update_blocks_of_le _ hnil, chunk_state_fill_buf_buffered _ hall,
      after_of_le _ hall, List.take_nil, List.append_nil]
  · have hmin : min (64 - bytes.length) input.length = 64 - bytes.length := by omega
    have hmore : (input.drop (64 - bytes.length)).length > 0 := by
      rw [List.length_drop]
      omega
    have hlarge : 64 < (bytes ++ input).length := by
      rw [List.length_append]
      omega
    have hfull : 64 ≤ (bytes ++ input.take (64 - bytes.length)).length := by
      rw [List.length_append, List.length_take]
      omega
    have hblock : block_at (bytes ++ input) = block_at (bytes ++ input.take (64 - bytes.length)) := by
      rw [← block_at_append hfull (input.drop (64 - bytes.length)), List.append_assoc,
        List.take_append_drop]
    have hdrop : (bytes ++ input).drop 64 = input.drop (64 - bytes.length) := by
      rw [List.drop_append, List.drop_of_length_le hle, List.nil_append]
    have hnext := chunk_state_update_clear htarget
      (self.compressed (block_at (bytes ++ input.take (64 - bytes.length))))
      (input.drop (64 - bytes.length))
    unfold chunk_state_update at hnext
    simp only [hmin, if_pos hmore, compressed_clear htarget]
    rw [after_of_lt _ hlarge, hdrop, hblock, ← hnext]
    rfl

/-- Two updates of a chunk are one with their inputs joined. -/
theorem chunk_state_update_after (self : blake3_chunk_state) (bytes input : List UInt8) :
    chunk_state_update target (self.after bytes) input = self.after (bytes ++ input) := by
  induction hn : bytes.length using Nat.strong_induction_on generalizing self bytes with
  | _ n ih =>
    by_cases hle : bytes.length ≤ 64
    · rw [after_of_le _ hle]
      by_cases hpos : 0 < bytes.length
      · exact chunk_state_update_buffered htarget self hpos hle input
      · rw [List.length_eq_zero_iff.mp (Nat.eq_zero_of_not_pos hpos)]
        exact chunk_state_update_clear htarget self input
    · have hlt : 64 < bytes.length := Nat.lt_of_not_le hle
      have hlt' : 64 < (bytes ++ input).length := by
        rw [List.length_append]
        omega
      rw [after_of_lt _ hlt, after_of_lt _ hlt', block_at_append hlt.le,
        List.drop_append_of_le_length hlt.le]
      exact ih (bytes.drop 64).length (by rw [List.length_drop]; omega) _ _ rfl

theorem foldl_chunk_state_update (self : blake3_chunk_state) (bytes : List UInt8)
    (pieces : List (List UInt8)) :
    pieces.foldl (chunk_state_update target) (self.after bytes) =
      self.after (bytes ++ pieces.flatten) := by
  induction pieces generalizing bytes with
  | nil => rw [List.flatten_nil, List.append_nil, List.foldl_nil]
  | cons piece pieces ih =>
    rw [List.foldl_cons, chunk_state_update_after htarget, ih, List.flatten_cons, List.append_assoc]

end

/-- The state in front of the first byte of a chunk. -/
def chunkAt (key : Vector UInt32 8) (flags : UInt8) (counter : UInt64) : blake3_chunk_state :=
  { chunk_state_init key flags with chunk_counter := counter }

theorem chunkAt_buffered (key : Vector UInt32 8) (flags : UInt8) (counter : UInt64) :
    (chunkAt key flags counter).buffered [] = chunkAt key flags counter := by
  unfold blake3_chunk_state.buffered
  rw [block_at_nil]
  rfl

theorem chunk_state_reset_eq (self : blake3_chunk_state) (key : Vector UInt32 8) (counter : UInt64) :
    chunk_state_reset self key counter = chunkAt key self.flags counter := rfl

theorem chunk_state_update_chunkAt {target : Target} (htarget : target.Conforms)
    (key : Vector UInt32 8) (flags : UInt8) (counter : UInt64) (bytes : List UInt8) :
    chunk_state_update target (chunkAt key flags counter) bytes =
      (chunkAt key flags counter).after bytes := by
  rw [← chunk_state_update_clear htarget, chunkAt_buffered]

theorem after_nil (key : Vector UInt32 8) (flags : UInt8) (counter : UInt64) :
    (chunkAt key flags counter).after [] = chunkAt key flags counter := by
  rw [after_of_le _ (show ([] : List UInt8).length ≤ 64 from Nat.zero_le 64), chunkAt_buffered]

theorem toNat_blocks_compressed (self : blake3_chunk_state) (block : Vector UInt8 64)
    (hroom : self.blocks_compressed.toNat < 255) :
    (self.compressed block).blocks_compressed.toNat = self.blocks_compressed.toNat + 1 := by
  change (self.blocks_compressed + 1).toNat = _
  rw [UInt8.toNat_add, UInt8.toNat_one]
  omega

/-- What one induction over the blocks of a chunk shows of the state after them: the
counter of blocks does not wrap as long as there are fewer than 256. -/
theorem after_spec (self : blake3_chunk_state) (bytes : List UInt8)
    (hroom : 64 * self.blocks_compressed.toNat + bytes.length ≤ 64 * 255) :
    chunk_state_len (self.after bytes) = 64 * self.blocks_compressed.toNat + bytes.length ∧
      (self.after bytes).chunk_counter = self.chunk_counter ∧
      (self.after bytes).flags = self.flags ∧
      chunk_state_output (self.after bytes) = absorb self.cv self.chunk_counter self.flags
        (chunk_state_maybe_start_flag self) bytes := by
  induction hn : bytes.length using Nat.strong_induction_on generalizing self bytes with
  | _ n ih =>
    subst hn
    by_cases hle : bytes.length ≤ 64
    · rw [after_of_le _ hle]
      refine ⟨?_, buffered_chunk_counter self bytes, buffered_flags self bytes, ?_⟩
      · rw [chunk_state_len, toNat_buf_len_buffered _ hle, buffered_blocks_compressed]
        rfl
      · rw [absorb, if_neg (show ¬ bytes.length > BLAKE3_BLOCK_LEN from Nat.not_lt.mpr hle),
          chunk_state_output, maybe_start_flag_buffered, buffered_cv, buffered_chunk_counter,
          buffered_flags]
        rfl
    · have hlt : 64 < bytes.length := Nat.lt_of_not_le hle
      have hblocks := toNat_blocks_compressed self (block_at bytes) (by omega)
      have hdrop : (bytes.drop 64).length = bytes.length - 64 := List.length_drop
      have hstart : chunk_state_maybe_start_flag (self.compressed (block_at bytes)) = 0 := by
        rw [chunk_state_maybe_start_flag, if_neg]
        intro hzero
        rw [hzero] at hblocks
        exact absurd hblocks (by simp)
      obtain ⟨hlen, hcounter, hflags, houtput⟩ := ih (bytes.drop 64).length (by omega)
        (self.compressed (block_at bytes)) (bytes.drop 64) (by omega) rfl
      rw [after_of_lt _ hlt]
      refine ⟨?_, hcounter, hflags, ?_⟩
      · rw [hlen, hblocks]
        omega
      · rw [houtput, hstart, absorb.eq_def self.cv,
          if_pos (show bytes.length > BLAKE3_BLOCK_LEN from hlt)]
        rfl

section

variable (key : Vector UInt32 8) (flags : UInt8) (index : Nat) {bytes : List UInt8}

theorem chunk_state_len_chunkAt (hle : bytes.length ≤ BLAKE3_CHUNK_LEN) :
    chunk_state_len ((chunkAt key flags (UInt64.ofNat index)).after bytes) = bytes.length := by
  unfold BLAKE3_CHUNK_LEN at hle
  rw [(after_spec (chunkAt key flags (UInt64.ofNat index)) bytes (by change 64 * 0 + _ ≤ _; omega)).1]
  exact Nat.zero_add _

theorem chunk_counter_chunkAt (counter : UInt64) (hle : bytes.length ≤ BLAKE3_CHUNK_LEN) :
    ((chunkAt key flags counter).after bytes).chunk_counter = counter := by
  unfold BLAKE3_CHUNK_LEN at hle
  exact (after_spec (chunkAt key flags counter) bytes (by change 64 * 0 + _ ≤ _; omega)).2.1

theorem flags_chunkAt (counter : UInt64) (hle : bytes.length ≤ BLAKE3_CHUNK_LEN) :
    ((chunkAt key flags counter).after bytes).flags = flags := by
  unfold BLAKE3_CHUNK_LEN at hle
  exact (after_spec (chunkAt key flags counter) bytes (by change 64 * 0 + _ ≤ _; omega)).2.2.1

/-- The chunk state computes the output of a leaf. -/
theorem chunk_state_output_chunkAt (hle : bytes.length ≤ BLAKE3_CHUNK_LEN) :
    chunk_state_output ((chunkAt key flags (UInt64.ofNat index)).after bytes) =
      chunkOutput key flags ⟨index, bytes⟩ := by
  unfold BLAKE3_CHUNK_LEN at hle
  obtain ⟨_, _, _, houtput⟩ := after_spec (chunkAt key flags (UInt64.ofNat index)) bytes
    (by change 64 * 0 + _ ≤ _; omega)
  exact houtput

/-- The chaining value of a leaf, by way of the chunk state. -/
theorem chunk_cv_eq {target : Target} (htarget : target.Conforms)
    (hle : bytes.length ≤ BLAKE3_CHUNK_LEN) :
    output_chaining_value target (chunk_state_output
      (chunk_state_update target (chunkAt key flags (UInt64.ofNat index)) bytes)) =
        treeCv key flags (.leaf ⟨index, bytes⟩) := by
  rw [chunk_state_update_chunkAt htarget, chunk_state_output_chunkAt key flags index hle,
    output_chaining_value_eq htarget]
  rfl

end

theorem block_at_take {input : List UInt8} {n : Nat} (hinput : 64 ≤ input.length) (hn : 64 ≤ n) :
    block_at (input.take n) = block_at input := by
  have hfront : 64 ≤ (input.take n).length := by
    rw [List.length_take]
    omega
  rw [← block_at_append hfront (input.drop n), List.take_append_drop]

/-- The loop that hashes whole blocks at a pointer agrees with the chunk state. -/
theorem hash_one_loop_eq_absorb {input : List UInt8} {blocks : Nat}
    (hinput : 64 * (blocks + 1) ≤ input.length) (cv : Vector UInt32 8) (counter : UInt64)
    (flags start : UInt8) :
    store_cv_words (hash_one_loop (blocks + 1) input cv counter (flags ||| start) flags CHUNK_END) =
      chainingValue (absorb cv counter flags start (input.take (64 * (blocks + 1)))) := by
  have hlength : (input.take (64 * (blocks + 1))).length = 64 * (blocks + 1) := by
    rw [List.length_take]
    omega
  have hblock : block_at (input.take (64 * (blocks + 1))) = block_at input :=
    block_at_take (by omega) (by omega)
  induction blocks generalizing input cv start with
  | zero =>
    have hlast : ¬ (input.take (64 * (0 + 1))).length > BLAKE3_BLOCK_LEN := by
      rw [hlength]
      exact Nat.lt_irrefl 64
    rw [absorb, if_neg hlast, hblock, hlength]
    rfl
  | succ blocks ih =>
    have hmore : (input.take (64 * (blocks + 1 + 1))).length > BLAKE3_BLOCK_LEN := by
      rw [hlength]
      unfold BLAKE3_BLOCK_LEN
      omega
    have hdrop : (input.take (64 * (blocks + 1 + 1))).drop BLAKE3_BLOCK_LEN =
        (input.drop 64).take (64 * (blocks + 1)) := by
      rw [List.drop_take]
      rfl
    have hrest : 64 * (blocks + 1) ≤ (input.drop 64).length := by
      rw [List.length_drop]
      omega
    have htake : ((input.drop 64).take (64 * (blocks + 1))).length = 64 * (blocks + 1) := by
      rw [List.length_take]
      omega
    have hnext := ih hrest
      (blake3_compress_in_place_portable cv (block_at input) 64 counter (flags ||| start)) 0 htake
      (block_at_take (by omega) (by omega))
    rw [UInt8.or_zero] at hnext
    rw [absorb, if_pos hmore, hblock, hdrop, ← hnext, hash_one_loop,
      if_neg (Nat.succ_ne_succ_iff.mpr (Nat.succ_ne_zero blocks))]
    rfl

/-- A chunk in the middle of the input, hashed at its pointer. -/
theorem hash_one_portable_chunk {input : List UInt8} (hinput : BLAKE3_CHUNK_LEN ≤ input.length)
    (key : Vector UInt32 8) (flags : UInt8) (index : Nat) :
    hash_one_portable input (BLAKE3_CHUNK_LEN / BLAKE3_BLOCK_LEN) key (UInt64.ofNat index) flags
        CHUNK_START CHUNK_END =
      treeCv key flags (.leaf ⟨index, input.take BLAKE3_CHUNK_LEN⟩) := by
  have hblocks : 64 * (15 + 1) ≤ input.length := hinput
  exact hash_one_loop_eq_absorb hblocks key (UInt64.ofNat index) flags CHUNK_START

/-- The two ways to hash a chunk agree: at its pointer, or piece by piece through the
buffer of the chunk state. -/
theorem hash_one_portable_pieces {target : Target} (htarget : target.Conforms)
    {pieces : List (List UInt8)} (hpieces : pieces.flatten.length = BLAKE3_CHUNK_LEN)
    (rest : List UInt8) (key : Vector UInt32 8) (flags : UInt8) (counter : UInt64) :
    hash_one_portable (pieces.flatten ++ rest) (BLAKE3_CHUNK_LEN / BLAKE3_BLOCK_LEN) key counter flags
        CHUNK_START CHUNK_END =
      output_chaining_value target (chunk_state_output
        (pieces.foldl (chunk_state_update target)
          { chunk_state_init key flags with chunk_counter := counter })) := by
  have hinput : BLAKE3_CHUNK_LEN ≤ (pieces.flatten ++ rest).length := by
    rw [List.length_append]
    omega
  have hpointer := hash_one_portable_chunk hinput key flags counter.toNat
  have houtput := chunk_state_output_chunkAt key flags counter.toNat hpieces.le
  have hfold := foldl_chunk_state_update htarget (chunkAt key flags counter) [] pieces
  rw [UInt64.ofNat_toNat] at hpointer houtput
  rw [after_nil, List.nil_append] at hfold
  rw [hpointer, ← hpieces, List.take_left]
  change _ = output_chaining_value target (chunk_state_output
    (pieces.foldl (chunk_state_update target) (chunkAt key flags counter)))
  rw [hfold, houtput, output_chaining_value_eq htarget]
  rfl

theorem hash_one_portable_pieces_two :
    hash_one_portable ([List.replicate 1000 1, List.replicate 24 2].flatten ++ [3])
        (BLAKE3_CHUNK_LEN / BLAKE3_BLOCK_LEN) IV 5 0 CHUNK_START CHUNK_END =
      output_chaining_value vectorTarget (chunk_state_output
        ([List.replicate 1000 1, List.replicate 24 2].foldl (chunk_state_update vectorTarget)
          { chunk_state_init IV 0 with chunk_counter := 5 })) := by
  have hpieces : [List.replicate 1000 (1 : UInt8), List.replicate 24 2].flatten.length =
      BLAKE3_CHUNK_LEN := by
    simp only [List.length_flatten, List.map_cons, List.map_nil, List.length_replicate]
    rfl
  exact hash_one_portable_pieces vectorTarget_conforms hpieces [3] IV 0 5

end ryefs
