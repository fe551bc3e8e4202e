import RyeFs.Blake3.Dispatch
import RyeFs.Lib.Buffer

open buffers

namespace ryefs

structure blake3_chunk_state where
  cv : Vector UInt32 8
  chunk_counter : UInt64
  buf : Vector UInt8 64
  buf_len : UInt8
  blocks_compressed : UInt8
  flags : UInt8
  deriving DecidableEq, Repr

/-- The hasher. `cv_stack` holds the `cv_stack_len` entries in use, the last one
pushed first. -/
structure blake3_hasher where
  key : Vector UInt32 8
  chunk : blake3_chunk_state
  cv_stack : List (Vector UInt8 32)
  deriving DecidableEq, Repr

def blake3_hasher.cv_stack_len (self : blake3_hasher) : Nat := self.cv_stack.length

def chunk_state_init (key : Vector UInt32 8) (flags : UInt8) : blake3_chunk_state where
  cv := key
  chunk_counter := 0
  buf := Vector.replicate 64 0
  buf_len := 0
  blocks_compressed := 0
  flags := flags

def chunk_state_reset (self : blake3_chunk_state) (key : Vector UInt32 8) (chunk_counter : UInt64) :
    blake3_chunk_state :=
  { self with
    cv := key
    chunk_counter := chunk_counter
    blocks_compressed := 0
    buf := Vector.replicate 64 0
    buf_len := 0 }

def chunk_state_len (self : blake3_chunk_state) : Nat :=
  BLAKE3_BLOCK_LEN * self.blocks_compressed.toNat + self.buf_len.toNat

/-- The state with more of its buffer filled, and how much of the input went there. -/
def chunk_state_fill_buf (self : blake3_chunk_state) (input : List UInt8) :
    blake3_chunk_state × Nat :=
  let buf_len := self.buf_len.toNat
  let take := BLAKE3_BLOCK_LEN - buf_len
  let take := if take > input.length then input.length else take
  let buf := Vector.ofFn fun i : Fin 64 =>
    if buf_len ≤ i.val ∧ i.val < buf_len + take then input.getD (i.val - buf_len) 0 else self.buf[i]
  ({ self with buf := buf, buf_len := self.buf_len + UInt8.ofNat take }, take)

def chunk_state_maybe_start_flag (self : blake3_chunk_state) : UInt8 :=
  if self.blocks_compressed = 0 then CHUNK_START else 0

/-- A compression that has not been run yet: it may be the root of the tree. -/
structure output_t where
  input_cv : Vector UInt32 8
  counter : UInt64
  block : Vector UInt8 64
  block_len : UInt8
  flags : UInt8
  deriving DecidableEq, Repr

def make_output (input_cv : Vector UInt32 8) (block : Vector UInt8 64) (block_len : UInt8)
    (counter : UInt64) (flags : UInt8) : output_t :=
  ⟨input_cv, counter, block, block_len, flags⟩

def output_chaining_value (target : Target) (self : output_t) : Vector UInt8 32 :=
  store_cv_words
    (blake3_compress_in_place target self.input_cv self.block self.block_len self.counter self.flags)

/-- The bytes from `seek` on of the extended output. -/
def output_root_bytes (target : Target) (self : output_t) (seek out_len : UInt64) : List UInt8 :=
  if out_len = 0 then [] else
    let output_block_counter := seek / 64
    let offset_within_block := seek % 64
    let wide (counter : UInt64) : List UInt8 :=
      (blake3_compress_xof target self.input_cv self.block self.block_len counter
        (self.flags ||| ROOT)).toList
    let (head, out_len, output_block_counter) :=
      if offset_within_block ≠ 0 then
        let available_bytes := 64 - offset_within_block
        let bytes := if out_len > available_bytes then available_bytes else out_len
        (((wide output_block_counter).drop offset_within_block.toNat).take bytes.toNat,
          out_len - bytes, output_block_counter + 1)
      else ([], out_len, output_block_counter)
    let blocks :=
      if out_len / 64 ≠ 0 then
        blake3_xof_many target self.input_cv self.block self.block_len output_block_counter
          (self.flags ||| ROOT) (out_len / 64).toNat
      else []
    let output_block_counter := output_block_counter + out_len / 64
    let out_len := out_len - (out_len &&& -64)
    let tail := if out_len ≠ 0 then (wide output_block_counter).take out_len.toNat else []
    head ++ blocks ++ tail

/-- The loop over whole blocks. It always leaves something for the buffer. -/
def chunk_state_update_blocks (target : Target) (self : blake3_chunk_state) (input : List UInt8) :
    blake3_chunk_state × List UInt8 :=
  if input.length > BLAKE3_BLOCK_LEN then
    let cv := blake3_compress_in_place target self.cv (block_at input) 64 self.chunk_counter
      (self.flags ||| chunk_state_maybe_start_flag self)
    chunk_state_update_blocks target
      { self with cv := cv, blocks_compressed := self.blocks_compressed + 1 }
      (input.drop BLAKE3_BLOCK_LEN)
  else (self, input)
termination_by input.length
decreasing_by
  unfold BLAKE3_BLOCK_LEN at *
  rw [List.length_drop]
  omega

def chunk_state_update (target : Target) (self : blake3_chunk_state) (input : List UInt8) :
    blake3_chunk_state :=
  let (self, input) :=
    if self.buf_len > 0 then
      let (self, take) := chunk_state_fill_buf self input
      let input := input.drop take
      if input.length > 0 then
        let cv := blake3_compress_in_place target self.cv self.buf 64 self.chunk_counter
          (self.flags ||| chunk_state_maybe_start_flag self)
        ({ self with
            cv := cv
            blocks_compressed := self.blocks_compressed + 1
            buf_len := 0
            buf := Vector.replicate 64 0 }, input)
      else (self, input)
    else (self, input)
  let (self, input) := chunk_state_update_blocks target self input
  (chunk_state_fill_buf self input).1

def chunk_state_output (self : blake3_chunk_state) : output_t :=
  let block_flags := self.flags ||| chunk_state_maybe_start_flag self ||| CHUNK_END
  make_output self.cv self.buf self.buf_len self.chunk_counter block_flags

def parent_output (block : Vector UInt8 64) (key : Vector UInt32 8) (flags : UInt8) : output_t :=
  make_output key block 64 0 (flags ||| PARENT)

/-- In the arithmetic of `size_t`, so that the length 0 wraps around. -/
def left_subtree_len (input_len : Nat) : Nat :=
  let full_chunks := (UInt64.ofNat input_len - 1) / UInt64.ofNat BLAKE3_CHUNK_LEN
  (round_down_to_power_of_2 full_chunks * UInt64.ofNat BLAKE3_CHUNK_LEN).toNat

theorem two_pow_log2_chunks_le (n : Nat) :
    2 ^ (n / BLAKE3_CHUNK_LEN).log2 * BLAKE3_CHUNK_LEN ≤ max n BLAKE3_CHUNK_LEN := by
  unfold BLAKE3_CHUNK_LEN
  by_cases hzero : n / 1024 = 0
  · rw [hzero, show Nat.log2 0 = 0 from rfl]
    omega
  · have hpow := Nat.log2_self_le hzero
    omega

/-- The product does not wrap around. -/
theorem left_subtree_len_eq_mul (input_len : Nat) :
    left_subtree_len input_len =
      2 ^ ((UInt64.ofNat input_len - 1).toNat / BLAKE3_CHUNK_LEN).log2 * BLAKE3_CHUNK_LEN := by
  have hle := two_pow_log2_chunks_le (UInt64.ofNat input_len - 1).toNat
  have hlt := (UInt64.ofNat input_len - 1).toNat_lt
  have hchunk : (UInt64.ofNat BLAKE3_CHUNK_LEN).toNat = BLAKE3_CHUNK_LEN := rfl
  unfold left_subtree_len
  dsimp only
  rw [UInt64.toNat_mul, round_down_to_power_of_2_toNat, UInt64.toNat_div, hchunk]
  apply Nat.mod_eq_of_lt
  unfold BLAKE3_CHUNK_LEN at *
  omega

theorem left_subtree_len_pos (input_len : Nat) : 0 < left_subtree_len input_len := by
  rw [left_subtree_len_eq_mul]
  exact Nat.mul_pos (Nat.two_pow_pos _) (Nat.zero_lt_succ _)

theorem left_subtree_len_eq_pow {input_len : Nat} (hpos : 0 < input_len)
    (hsize : input_len < 2 ^ 64) :
    left_subtree_len input_len =
      2 ^ ((input_len - 1) / BLAKE3_CHUNK_LEN).log2 * BLAKE3_CHUNK_LEN := by
  have hlen : (UInt64.ofNat input_len).toNat = input_len := UInt64.toNat_ofNat_of_lt hsize
  have hone : (1 : UInt64) ≤ UInt64.ofNat input_len := by
    rw [UInt64.le_iff_toNat_le, hlen]
    exact hpos
  rw [left_subtree_len_eq_mul, UInt64.toNat_sub_of_le _ _ hone, hlen, UInt64.toNat_one]

/-- At every length, so that the recursion over subtrees ends. -/
theorem left_subtree_len_lt {input_len : Nat} (h : BLAKE3_CHUNK_LEN < input_len) :
    left_subtree_len input_len < input_len := by
  by_cases hsize : input_len < 2 ^ 64
  · have hle := two_pow_log2_chunks_le (input_len - 1)
    rw [left_subtree_len_eq_pow (Nat.zero_lt_of_lt h) hsize]
    omega
  · have hle := two_pow_log2_chunks_le (UInt64.ofNat input_len - 1).toNat
    have hlt := (UInt64.ofNat input_len - 1).toNat_lt
    rw [left_subtree_len_eq_mul]
    omega

/-- Pointers to the whole chunks of the input, and what is left behind them. -/
def whole_chunks (input : List UInt8) : List (List UInt8) × List UInt8 :=
  if input.length ≥ BLAKE3_CHUNK_LEN then
    let (chunks_array, rest) := whole_chunks (input.drop BLAKE3_CHUNK_LEN)
    (input :: chunks_array, rest)
  else ([], input)
termination_by input.length
decreasing_by
  unfold BLAKE3_CHUNK_LEN at *
  rw [List.length_drop]
  omega

/-- The chaining values of the chunks of the input. It is an error to collect more
of them than the array of pointers has room for. -/
def compress_chunks_parallel (target : Target) (input : List UInt8) (key : Vector UInt32 8)
    (chunk_counter : UInt64) (flags : UInt8) : Option (List (Vector UInt8 32)) :=
  let (chunks_array, rest) := whole_chunks input
  if chunks_array.length > target.MAX_SIMD_DEGREE then none else
    let out := blake3_hash_many target chunks_array (BLAKE3_CHUNK_LEN / BLAKE3_BLOCK_LEN) key
      chunk_counter true flags CHUNK_START CHUNK_END
    if rest.length > 0 then
      let counter := chunk_counter + UInt64.ofNat chunks_array.length
      let chunk_state := { chunk_state_init key flags with chunk_counter := counter }
      let chunk_state := chunk_state_update target chunk_state rest
      some (out ++ [output_chaining_value target (chunk_state_output chunk_state)])
    else some out

/-- The blocks of two neighbours each, and an odd one out. -/
def parent_blocks : List (Vector UInt8 32) → List (List UInt8) × List (Vector UInt8 32)
  | [] => ([], [])
  | [odd] => ([], [odd])
  | left :: right :: rest =>
    let (parents_array, odd) := parent_blocks rest
    ((left.toList ++ right.toList) :: parents_array, odd)

def compress_parents_parallel (target : Target) (child_chaining_values : List (Vector UInt8 32))
    (key : Vector UInt32 8) (flags : UInt8) : Option (List (Vector UInt8 32)) :=
  let (parents_array, odd) := parent_blocks child_chaining_values
  if parents_array.length > target.MAX_SIMD_DEGREE_OR_2 then none else
    let out := blake3_hash_many target parents_array 1 key 0 false (flags ||| PARENT) 0 0
    some (out ++ odd)

/-- The chaining values of one layer of the subtree over the input, as many as the
SIMD degree or fewer, but two at least when there is more than one chunk. -/
def blake3_compress_subtree_wide (target : Target) (input : List UInt8) (key : Vector UInt32 8)
    (chunk_counter : UInt64) (flags : UInt8) : Option (List (Vector UInt8 32)) :=
  if input.length ≤ blake3_simd_degree target * BLAKE3_CHUNK_LEN then
    compress_chunks_parallel target input key chunk_counter flags
  else do
    let left_input_len := left_subtree_len input.length
    let right_chunk_counter :=
      chunk_counter + UInt64.ofNat (left_input_len / BLAKE3_CHUNK_LEN)
    let degree :=
      if left_input_len > BLAKE3_CHUNK_LEN ∧ blake3_simd_degree target = 1 then 2
      else blake3_simd_degree target
    let left_cvs ← blake3_compress_subtree_wide target (input.take left_input_len) key
      chunk_counter flags
    let cv_array ← (Buffer.new (2 * target.MAX_SIMD_DEGREE_OR_2)).write 0 left_cvs
    let right_cvs ← blake3_compress_subtree_wide target (input.drop left_input_len) key
      right_chunk_counter flags
    let cv_array ← cv_array.write degree right_cvs
    if left_cvs.length = 1 then
      cv_array.read 2
    else do
      let cvs ← cv_array.read (left_cvs.length + right_cvs.length)
      compress_parents_parallel target cvs key flags
termination_by input.length
decreasing_by
  all_goals
    have hdegree := blake3_simd_degree_pos target
    have hlarge : BLAKE3_CHUNK_LEN < input.length := by
      unfold BLAKE3_CHUNK_LEN at *
      omega
    have hlt := left_subtree_len_lt hlarge
    have hpos := left_subtree_len_pos input.length
    simp only [List.length_take, List.length_drop]
    omega

theorem length_parent_blocks (cvs : List (Vector UInt8 32)) :
    (parent_blocks cvs).1.length = cvs.length / 2 ∧ (parent_blocks cvs).2.length = cvs.length % 2 := by
  induction cvs using parent_blocks.induct with
  | case1 => simp [parent_blocks]
  | case2 odd => simp [parent_blocks]
  | case3 left right rest ih =>
    simp only [parent_blocks, List.length_cons]
    omega

theorem length_of_compress_parents_parallel {target : Target} {cvs out : List (Vector UInt8 32)}
    {key : Vector UInt32 8} {flags : UInt8}
    (h : compress_parents_parallel target cvs key flags = some out) :
    out.length = (cvs.length + 1) / 2 := by
  obtain ⟨hblocks, hodd⟩ := length_parent_blocks cvs
  simp only [compress_parents_parallel, Option.ite_none_left_eq_some, Option.some.injEq] at h
  rw [← h.2, List.length_append, length_hash_many, hblocks, hodd]
  omega

/-- The loop that forms parents until two chaining values are left. The array for
one layer of them is half as large as the one they come from. -/
def condense (target : Target) (cvs : List (Vector UInt8 32)) (key : Vector UInt32 8)
    (flags : UInt8) : Option (List (Vector UInt8 32)) :=
  if cvs.length > 2 then
    match _h : compress_parents_parallel target cvs key flags with
    | none => none
    | some out =>
      if out.length > target.MAX_SIMD_DEGREE_OR_2 / 2 then none
      else condense target out key flags
  else some cvs
termination_by cvs.length
decreasing_by
  have hlength := length_of_compress_parents_parallel _h
  omega

/-- The chaining values of the two children of the root of the subtree. -/
def compress_subtree_to_parent_node (target : Target) (input : List UInt8) (key : Vector UInt32 8)
    (chunk_counter : UInt64) (flags : UInt8) : Option (Vector UInt8 32 × Vector UInt8 32) := do
  let cvs ← blake3_compress_subtree_wide target input key chunk_counter flags
  -- the assertion of the source, and the size of its array
  if cvs.length > target.MAX_SIMD_DEGREE_OR_2 then
    none
  else do
    let cvs ←
      if target.MAX_SIMD_DEGREE_OR_2 > 2 then condense target cvs key flags else some cvs
    match cvs with
    | left :: right :: _ => some (left, right)
    | _ => none

def hasher_init_base (key : Vector UInt32 8) (flags : UInt8) : blake3_hasher where
  key := key
  chunk := chunk_state_init key flags
  cv_stack := []

def blake3_hasher_init : blake3_hasher := hasher_init_base IV 0

def blake3_hasher_init_keyed (key : Vector UInt8 32) : blake3_hasher :=
  hasher_init_base (load_key_words key) KEYED_HASH

/-- The loop that merges the top of the stack. Fewer than two entries cannot be
merged. -/
def merge_cv_stack_loop (target : Target) (key : Vector UInt32 8) (flags : UInt8)
    (post_merge_stack_len : Nat) (cv_stack : List (Vector UInt8 32)) :
    Option (List (Vector UInt8 32)) :=
  if cv_stack.length > post_merge_stack_len then
    match cv_stack with
    | right :: left :: rest =>
      let parent_cv := output_chaining_value target (parent_output (left ++ right) key flags)
      merge_cv_stack_loop target key flags post_merge_stack_len (parent_cv :: rest)
    | _ => none
  else some cv_stack
termination_by cv_stack.length

def hasher_merge_cv_stack (target : Target) (self : blake3_hasher) (total_len : UInt64) :
    Option blake3_hasher := do
  let cv_stack ←
    merge_cv_stack_loop target self.key self.chunk.flags (popcnt total_len) self.cv_stack
  return { self with cv_stack := cv_stack }

/-- A full stack takes no more entries. -/
def hasher_push_cv (target : Target) (self : blake3_hasher) (new_cv : Vector UInt8 32)
    (chunk_counter : UInt64) : Option blake3_hasher := do
  let self ← hasher_merge_cv_stack target self chunk_counter
  if self.cv_stack_len < BLAKE3_MAX_DEPTH + 1 then
    return { self with cv_stack := new_cv :: self.cv_stack }
  else none

/-- The loop that shrinks the subtree until it evenly divides the count so far. It
stops at 1, so it never gets to 0. -/
def shrink_subtree_len (subtree_len count_so_far : UInt64) : UInt64 :=
  if subtree_len ≠ 0 ∧ (subtree_len - 1) &&& count_so_far ≠ 0 then
    shrink_subtree_len (subtree_len / 2) count_so_far
  else subtree_len
termination_by subtree_len.toNat
decreasing_by
  have hne : subtree_len.toNat ≠ 0 := by
    rw [ne_eq, ← UInt64.toNat_inj] at *
    tauto
  rw [UInt64.toNat_div]
  exact Nat.div_lt_self (Nat.pos_of_ne_zero hne) Nat.one_lt_two

theorem shrink_subtree_len_ne_zero {subtree_len : UInt64} (h : subtree_len ≠ 0)
    (count_so_far : UInt64) : shrink_subtree_len subtree_len count_so_far ≠ 0 := by
  induction subtree_len using shrink_subtree_len.induct count_so_far with
  | case1 subtree_len hmore ih =>
    have hne_one : subtree_len ≠ 1 := by
      rintro rfl
      exact hmore.2 (UInt64.zero_and)
    rw [shrink_subtree_len, if_pos hmore]
    apply ih
    rw [ne_eq, ← UInt64.toNat_inj, UInt64.toNat_div] at *
    simp only [UInt64.reduceToNat] at *
    omega
  | case2 subtree_len hdone =>
    rw [shrink_subtree_len, if_neg hdone]
    exact h

/-- The loop over whole subtrees, with the input that is left behind them: one
chunk at most. -/
def hasher_update_subtrees (target : Target) (self : blake3_hasher) (input : List UInt8) :
    Option (blake3_hasher × List UInt8) :=
  if input.length > BLAKE3_CHUNK_LEN then do
    let count_so_far := self.chunk.chunk_counter * UInt64.ofNat BLAKE3_CHUNK_LEN
    let subtree_len :=
      shrink_subtree_len (round_down_to_power_of_2 (UInt64.ofNat input.length)) count_so_far
    let subtree_chunks := subtree_len / UInt64.ofNat BLAKE3_CHUNK_LEN
    let subtree := input.take subtree_len.toNat
    let self ←
      if subtree_len ≤ UInt64.ofNat BLAKE3_CHUNK_LEN then
        let chunk_state :=
          { chunk_state_init self.key self.chunk.flags with
            chunk_counter := self.chunk.chunk_counter }
        let chunk_state := chunk_state_update target chunk_state subtree
        let cv := output_chaining_value target (chunk_state_output chunk_state)
        hasher_push_cv target self cv chunk_state.chunk_counter
      else do
        let (left_cv, right_cv) ← compress_subtree_to_parent_node target subtree self.key
          self.chunk.chunk_counter self.chunk.flags
        let self ← hasher_push_cv target self left_cv self.chunk.chunk_counter
        hasher_push_cv target self right_cv (self.chunk.chunk_counter + subtree_chunks / 2)
    let chunk := { self.chunk with chunk_counter := self.chunk.chunk_counter + subtree_chunks }
    hasher_update_subtrees target { self with chunk := chunk } (input.drop subtree_len.toNat)
  else return (self, input)
termination_by input.length
decreasing_by
  have hne (x count : UInt64) : shrink_subtree_len (round_down_to_power_of_2 x) count ≠ 0 :=
    shrink_subtree_len_ne_zero (round_down_to_power_of_2_ne_zero x) count
  rw [List.length_drop]
  exact Nat.sub_lt (by omega) (Nat.pos_of_ne_zero fun h => hne _ _ (UInt64.toNat_inj.mp h))

/-- The part of an update that runs with a clear chunk state. -/
def hasher_update_clear (target : Target) (self : blake3_hasher) (input : List UInt8) :
    Option blake3_hasher := do
  let (self, input) ← hasher_update_subtrees target self input
  if input.length > 0 then
    let self := { self with chunk := chunk_state_update target self.chunk input }
    hasher_merge_cv_stack target self self.chunk.chunk_counter
  else return self

def blake3_hasher_update (target : Target) (self : blake3_hasher) (input : List UInt8) :
    Option blake3_hasher :=
  if input.length = 0 then
    return self
  else if chunk_state_len self.chunk > 0 then do
    -- finish the chunk that is under way first
    let take := BLAKE3_CHUNK_LEN - chunk_state_len self.chunk
    let take := if take > input.length then input.length else take
    let self := { self with chunk := chunk_state_update target self.chunk (input.take take) }
    let input := input.drop take
    if input.length > 0 then do
      let chunk_cv := output_chaining_value target (chunk_state_output self.chunk)
      let self ← hasher_push_cv target self chunk_cv self.chunk.chunk_counter
      let chunk := chunk_state_reset self.chunk self.key (self.chunk.chunk_counter + 1)
      hasher_update_clear target { self with chunk := chunk } input
    else return self
  else hasher_update_clear target self input

/-- From the top of the stack down, each entry becomes the left sibling of the
output so far. -/
def finalize_loop (target : Target) (key : Vector UInt32 8) (flags : UInt8) (output : output_t)
    (cv_stack : List (Vector UInt8 32)) : output_t :=
  cv_stack.foldl
    (fun output cv => parent_output (cv ++ output_chaining_value target output) key flags) output

/-- Finalization without a byte in the chunk state starts from two entries of the
stack. Where they are missing, the source would read outside of it. -/
def blake3_hasher_finalize_seek (target : Target) (self : blake3_hasher) (seek out_len : UInt64) :
    Option (List UInt8) :=
  if out_len = 0 then
    return []
  else if self.cv_stack_len = 0 then
    return output_root_bytes target (chunk_state_output self.chunk) seek out_len
  else if chunk_state_len self.chunk > 0 then
    let output := chunk_state_output self.chunk
    let output := finalize_loop target self.key self.chunk.flags output self.cv_stack
    return output_root_bytes target output seek out_len
  else
    match self.cv_stack with
    | right :: left :: rest =>
      let output := parent_output (left ++ right) self.key self.chunk.flags
      let output := finalize_loop target self.key self.chunk.flags output rest
      return output_root_bytes target output seek out_len
    | _ => none

def blake3_hasher_finalize (target : Target) (self : blake3_hasher) (out_len : UInt64) :
    Option (List UInt8) :=
  blake3_hasher_finalize_seek target self 0 out_len

def blake3_hasher_reset (self : blake3_hasher) : blake3_hasher :=
  { self with
    chunk := chunk_state_reset self.chunk self.key 0
    cv_stack := [] }

def blake3_hasher_init_derive_key_raw (target : Target) (context : List UInt8) :
    Option blake3_hasher := do
  let context_hasher := hasher_init_base IV DERIVE_KEY_CONTEXT
  let context_hasher ← blake3_hasher_update target context_hasher context
  let context_key ← blake3_hasher_finalize target context_hasher (UInt64.ofNat BLAKE3_KEY_LEN)
  let context_key : Vector UInt8 32 := Vector.ofFn fun i => context_key.getD i.val 0
  return hasher_init_base (load_key_words context_key) DERIVE_KEY_MATERIAL

/-- The context is a string that ends at its first zero byte. -/
def blake3_hasher_init_derive_key (target : Target) (context : List UInt8) : Option blake3_hasher :=
  blake3_hasher_init_derive_key_raw target (context.takeWhile fun b => b ≠ 0)

end ryefs
