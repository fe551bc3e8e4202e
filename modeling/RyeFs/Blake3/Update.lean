import Mathlib.Order.Bounds.Defs
import RyeFs.Blake3.Subtree
import RyeFs.Lib.Stack

open bits hashtree

namespace ryefs

/-- The subtree that is left after the shrinking loop is a power of two of bytes, no
smaller than a chunk, and the largest one that divides the bytes so far. -/
theorem shrink_subtree_len_spec {subtree_len count_so_far : UInt64} {p : Nat}
    (hpow : subtree_len.toNat = 2 ^ p) (hp : 10 ≤ p)
    (hcount : BLAKE3_CHUNK_LEN ∣ count_so_far.toNat) :
    ∃ q, 10 ≤ q ∧ q ≤ p ∧ (shrink_subtree_len subtree_len count_so_far).toNat = 2 ^ q ∧
      2 ^ q ∣ count_so_far.toNat ∧ ∀ r ≤ p, 2 ^ r ∣ count_so_far.toNat → r ≤ q := by
  have hmask {len : UInt64} {p : Nat} (hlen : len.toNat = 2 ^ p) :
      (len - 1) &&& count_so_far = 0 ↔ 2 ^ p ∣ count_so_far.toNat := by
    have hone : (1 : UInt64) ≤ len := by
      rw [UInt64.le_iff_toNat_le, hlen]
      exact Nat.two_pow_pos p
    rw [← UInt64.toNat_inj, UInt64.toNat_and, UInt64.toNat_sub_of_le _ _ hone, hlen, UInt64.toNat_one]
    exact low_mask_and_eq_zero_iff
  induction subtree_len using shrink_subtree_len.induct count_so_far generalizing p with
  | case1 subtree_len hmore ih =>
    have hnot : ¬ 2 ^ p ∣ count_so_far.toNat := fun hdvd => hmore.2 ((hmask hpow).mpr hdvd)
    have hlt : 10 < p := by
      refine Nat.lt_of_le_of_ne hp ?_
      rintro rfl
      exact hnot hcount
    obtain ⟨m, rfl⟩ := Nat.exists_eq_add_one_of_ne_zero (Nat.ne_of_gt (Nat.zero_lt_of_lt hlt))
    have hhalf : (subtree_len / 2).toNat = 2 ^ m := by
      rw [UInt64.toNat_div, hpow, Nat.pow_succ]
      exact Nat.mul_div_cancel _ Nat.two_pos
    obtain ⟨q, hq, hqm, hresult, hdvd, hlargest⟩ := ih hhalf (Nat.le_of_lt_succ hlt)
    rw [shrink_subtree_len, if_pos hmore]
    refine ⟨q, hq, Nat.le_succ_of_le hqm, hresult, hdvd, fun r hr hrdvd => hlargest r ?_ hrdvd⟩
    apply Nat.le_of_lt_succ
    refine Nat.lt_of_le_of_ne hr ?_
    rintro rfl
    exact hnot hrdvd
  | case2 subtree_len hdone =>
    have hne : subtree_len ≠ 0 := by
      rintro rfl
      exact (Nat.two_pow_pos p).ne hpow
    have hzero : (subtree_len - 1) &&& count_so_far = 0 := by
      by_contra hset
      exact hdone ⟨hne, hset⟩
    rw [shrink_subtree_len, if_neg hdone]
    exact ⟨p, hp, le_rfl, hpow, (hmask hpow).mp hzero, fun r hr _ => hr⟩

/-- The subtree that an update takes next is the largest one that may come next: the
largest power of two that the input fills and that divides the bytes so far. -/
theorem shrink_subtree_len_isGreatest {input_len count_so_far : UInt64}
    (hlarge : BLAKE3_CHUNK_LEN < input_len.toNat) (hcount : BLAKE3_CHUNK_LEN ∣ count_so_far.toNat) :
    IsGreatest {len | (∃ r, len = 2 ^ r) ∧ len ≤ input_len.toNat ∧ len ∣ count_so_far.toNat}
        (shrink_subtree_len (round_down_to_power_of_2 input_len) count_so_far).toNat ∧
      BLAKE3_CHUNK_LEN ∣
        (shrink_subtree_len (round_down_to_power_of_2 input_len) count_so_far).toNat := by
  have hne : input_len.toNat ≠ 0 := Nat.ne_of_gt (Nat.zero_lt_of_lt hlarge)
  obtain ⟨q, hq, hqp, hlen, hdvd, hlargest⟩ := shrink_subtree_len_spec
    (round_down_to_power_of_2_toNat input_len) ((Nat.le_log2 hne).mpr hlarge.le) hcount
  rw [hlen]
  refine ⟨⟨⟨⟨q, rfl⟩, ?_, hdvd⟩, ?_⟩, Nat.pow_dvd_pow 2 hq⟩
  · exact (Nat.pow_le_pow_right Nat.two_pos hqp).trans (Nat.log2_self_le hne)
  · rintro len ⟨⟨r, rfl⟩, hle, hrdvd⟩
    exact Nat.pow_le_pow_right Nat.two_pos (hlargest r ((Nat.le_log2 hne).mpr hle) hrdvd)

/-- For 100 chunks of input, after 24 chunks. -/
theorem shrink_subtree_len_isGreatest_chunks :
    IsGreatest {len | (∃ r, len = 2 ^ r) ∧ len ≤ (UInt64.ofNat (100 * 1024)).toNat ∧
        len ∣ (UInt64.ofNat (24 * 1024)).toNat}
      (shrink_subtree_len (round_down_to_power_of_2 (UInt64.ofNat (100 * 1024)))
        (UInt64.ofNat (24 * 1024))).toNat ∧
      BLAKE3_CHUNK_LEN ∣ (shrink_subtree_len (round_down_to_power_of_2 (UInt64.ofNat (100 * 1024)))
        (UInt64.ofNat (24 * 1024))).toNat :=
  shrink_subtree_len_isGreatest (by decide) (by decide)

section

variable {target : Target} (htarget : target.Conforms) (key : Vector UInt32 8) (flags : UInt8)

theorem merge_cv_stack_loop_of_le {len : Nat} {cv_stack : List (Vector UInt8 32)}
    (h : cv_stack.length ≤ len) : merge_cv_stack_loop target key flags len cv_stack = some cv_stack := by
  rw [merge_cv_stack_loop.eq_def, if_neg (Nat.not_lt.mpr h)]

include htarget

theorem merge_cv_stack_loop_of_lt {len : Nat} {right left : Vector UInt8 32}
    {rest : List (Vector UInt8 32)} (h : len < (right :: left :: rest).length) :
    merge_cv_stack_loop target key flags len (right :: left :: rest) =
      merge_cv_stack_loop target key flags len (parentCv key flags left right :: rest) := by
  rw [merge_cv_stack_loop.eq_def, if_pos h]
  simp only [output_chaining_value_eq htarget]
  rfl

/-- The merge loop stops at the binary expansion of the number of chunks, with the
same chunks on the stack. -/
theorem merge_cv_stack_loop_spec {stack : List (LeafTree Chunk)} (hcarries : Carries 0 stack) :
    ∃ merged, merge_cv_stack_loop target key flags (popcount (stackSize stack))
        (stack.map (treeCv key flags)) = some (merged.map (treeCv key flags)) ∧
      Carries 1 merged ∧ stackLeaves merged = stackLeaves stack := by
  induction hn : stack.length generalizing stack with
  | zero =>
    obtain rfl := List.length_eq_zero_iff.mp hn
    exact ⟨[], merge_cv_stack_loop_of_le key flags (Nat.zero_le _), trivial, rfl⟩
  | succ n ih =>
    have hlength : (stack.map (treeCv key flags)).length = stack.length := List.length_map _
    by_cases hmore : popcount (stackSize stack) < stack.length
    · have hfull : ¬ Carries 1 stack := fun hone => Nat.not_le.mpr hmore (hcarries.one_iff.mp hone)
      obtain ⟨t, u, rest, rfl, hsize⟩ := hcarries.exists_top_eq hfull
      have hleaves : stackLeaves (.node u t :: rest) = stackLeaves (t :: u :: rest) := by
        simp only [stackLeaves, LeafTree.leaves, List.append_assoc]
      obtain ⟨merged, hmerged, hone, hsame⟩ := ih (hcarries.merge hsize) (by simpa using hn)
      rw [stackSize, hleaves] at hmerged
      refine ⟨merged, ?_, hone, hsame.trans hleaves⟩
      rw [← hmerged]
      exact merge_cv_stack_loop_of_lt htarget key flags (hlength.symm ▸ hmore)
    · refine ⟨stack, ?_, hcarries.one_iff.mpr (Nat.not_lt.mp hmore), rfl⟩
      exact merge_cv_stack_loop_of_le key flags (hlength.symm ▸ Nat.not_lt.mp hmore)

theorem hasher_merge_cv_stack_spec (self : blake3_hasher) {stack : List (LeafTree Chunk)}
    {total_len : UInt64} (hkey : self.key = key) (hflags : self.chunk.flags = flags)
    (hstack : self.cv_stack = stack.map (treeCv key flags)) (hcarries : Carries 0 stack)
    (htotal : total_len.toNat = stackSize stack) :
    ∃ merged, hasher_merge_cv_stack target self total_len =
        some { self with cv_stack := merged.map (treeCv key flags) } ∧
      Carries 1 merged ∧ stackLeaves merged = stackLeaves stack := by
  obtain ⟨merged, hmerged, hone, hleaves⟩ := merge_cv_stack_loop_spec htarget key flags hcarries
  refine ⟨merged, ?_, hone, hleaves⟩
  rw [hasher_merge_cv_stack, hkey, hflags, hstack, popcnt_eq, htotal, hmerged]
  rfl

/-- A full tree goes onto the stack when its size divides the number of chunks that
are there. The array has room for it. -/
theorem hasher_push_cv_spec (self : blake3_hasher) {stack : List (LeafTree Chunk)} {t : LeafTree Chunk}
    {chunk_counter : UInt64} (hkey : self.key = key) (hflags : self.chunk.flags = flags)
    (hstack : self.cv_stack = stack.map (treeCv key flags)) (hcarries : Carries 0 stack)
    (hcounter : chunk_counter.toNat = stackSize stack) (hfull : Full t)
    (haligned : t.size ∣ stackSize stack) (hbound : stackSize stack < 2 ^ 54) :
    ∃ merged, hasher_push_cv target self (treeCv key flags t) chunk_counter =
        some { self with cv_stack := (t :: merged).map (treeCv key flags) } ∧
      Carries 0 (t :: merged) ∧ stackLeaves (t :: merged) = stackLeaves stack ++ t.leaves ∧
      stackLeaves merged = stackLeaves stack := by
  obtain ⟨merged, hmerged, hone, hleaves⟩ :=
    hasher_merge_cv_stack_spec htarget key flags self hkey hflags hstack hcarries hcounter
  have hsame : stackSize merged = stackSize stack := congrArg List.length hleaves
  obtain ⟨j, hj⟩ := hfull.size
  have hroom : Carries t.size merged := by
    rw [hj] at haligned ⊢
    exact hone.align (hsame.symm ▸ haligned)
  have hdepth : merged.length < BLAKE3_MAX_DEPTH + 1 := by
    have hpow := hone.two_pow_length_le
    apply (Nat.pow_lt_pow_iff_right Nat.one_lt_two).mp
    calc 2 ^ merged.length ≤ 2 ^ 54 := by omega
      _ < 2 ^ (BLAKE3_MAX_DEPTH + 1) := Nat.pow_lt_pow_right Nat.one_lt_two (Nat.lt_succ_self 54)
  have hlength : (merged.map (treeCv key flags)).length = merged.length := List.length_map _
  refine ⟨merged, ?_, ⟨hfull, Nat.zero_le _, ?_⟩, ?_, hleaves⟩
  · simp only [hasher_push_cv, hmerged, Option.bind_eq_bind, Option.bind_some,
      blake3_hasher.cv_stack_len, hlength, if_pos hdepth]
    rfl
  · rw [Nat.zero_add]
    exact hroom
  · rw [stackLeaves, hleaves]

end

section

variable (key : Vector UInt32 8) (flags : UInt8)

/-- Whole chunks lie on the stack of a hasher. -/
structure Stacked (hasher : blake3_hasher) (front : List UInt8) (n : Nat)
    (stack : List (LeafTree Chunk)) : Prop where
  length : front.length = n * BLAKE3_CHUNK_LEN
  key_eq : hasher.key = key
  flags_eq : hasher.chunk.flags = flags
  stack_eq : hasher.cv_stack = stack.map (treeCv key flags)
  carries : Carries 0 stack
  leaves : stackLeaves stack = leadingChunks 0 n front

/-- Between two subtrees of an update, the chunk state is clear. -/
structure Aligned (hasher : blake3_hasher) (front : List UInt8) (n : Nat)
    (stack : List (LeafTree Chunk)) : Prop extends Stacked key flags hasher front n stack where
  chunk_eq : hasher.chunk = chunkAt key flags (UInt64.ofNat n)

/-- A hasher between two calls: the whole chunks of `front` are on the stack, and the
bytes of `rest` are in the chunk state. Without any, either nothing was taken in, or the
stack holds at least the two children of the root. -/
structure Absorbed (hasher : blake3_hasher) (front rest : List UInt8) (n : Nat)
    (stack : List (LeafTree Chunk)) : Prop extends Stacked key flags hasher front n stack where
  rest_le : rest.length ≤ BLAKE3_CHUNK_LEN
  chunk_eq : hasher.chunk = (chunkAt key flags (UInt64.ofNat n)).after rest
  merged : rest ≠ [] → Carries 1 stack
  ready : rest = [] → front = [] ∨ 2 ≤ stack.length

/-- The refinement relation: the abstract state of a hasher is the input so far. -/
def Represents (hasher : blake3_hasher) (bytes : List UInt8) : Prop :=
  ∃ front rest n stack, bytes = front ++ rest ∧ Absorbed key flags hasher front rest n stack

theorem represents_init : Represents key flags (hasher_init_base key flags) [] := by
  refine ⟨[], [], 0, [], rfl, ⟨rfl, rfl, rfl, rfl, trivial, rfl⟩, Nat.zero_le _, ?_,
    fun _ => trivial, fun _ => .inl rfl⟩
  rw [after_nil]
  rfl

variable {key flags}

theorem Stacked.size {self : blake3_hasher} {front : List UInt8} {n : Nat}
    {stack : List (LeafTree Chunk)} (h : Stacked key flags self front n stack) :
    stackSize stack = n := by
  rw [stackSize, h.leaves, length_leadingChunks]

theorem Stacked.clear {self : blake3_hasher} {front : List UInt8} {n : Nat}
    {stack : List (LeafTree Chunk)} (h : Stacked key flags self front n stack) :
    Aligned key flags { self with chunk := chunkAt key flags (UInt64.ofNat n) } front n stack :=
  ⟨⟨h.length, h.key_eq, rfl, h.stack_eq, h.carries, h.leaves⟩, rfl⟩

theorem Aligned.counter_eq {self : blake3_hasher} {front : List UInt8} {n : Nat}
    {stack : List (LeafTree Chunk)} (h : Aligned key flags self front n stack) :
    self.chunk.chunk_counter = UInt64.ofNat n := by
  rw [h.chunk_eq]
  rfl

/-- The length of the next subtree: a power of two of chunks that divides those on
the stack, and no more than there is input. -/
theorem Aligned.exists_subtree_len {self : blake3_hasher} {front : List UInt8} {n : Nat}
    {stack : List (LeafTree Chunk)} (h : Aligned key flags self front n stack) {input : List UInt8}
    (hlarge : BLAKE3_CHUNK_LEN < input.length) (hsize : (front ++ input).length < 2 ^ 64) :
    ∃ d, 2 ^ d ∣ n ∧ 2 ^ d * BLAKE3_CHUNK_LEN ≤ input.length ∧
      shrink_subtree_len (round_down_to_power_of_2 (UInt64.ofNat input.length))
        (self.chunk.chunk_counter * UInt64.ofNat BLAKE3_CHUNK_LEN) =
          UInt64.ofNat (2 ^ d * BLAKE3_CHUNK_LEN) := by
  have hpos : input.length ≠ 0 := Nat.ne_of_gt (Nat.zero_lt_of_lt hlarge)
  rw [List.length_append, h.length] at hsize
  have hcount : (self.chunk.chunk_counter * UInt64.ofNat BLAKE3_CHUNK_LEN).toNat =
      n * BLAKE3_CHUNK_LEN := by
    rw [h.chunk_eq, UInt64.toNat_mul]
    change (UInt64.ofNat n).toNat * (UInt64.ofNat 1024).toNat % 2 ^ 64 = n * 1024
    rw [UInt64.toNat_ofNat', UInt64.toNat_ofNat']
    unfold BLAKE3_CHUNK_LEN at hsize
    omega
  have hrounded := round_down_to_power_of_2_toNat (UInt64.ofNat input.length)
  rw [UInt64.toNat_ofNat', Nat.mod_eq_of_lt (by omega)] at hrounded
  obtain ⟨q, hq, hqp, hlen, hdvd, _⟩ := shrink_subtree_len_spec hrounded
    ((Nat.le_log2 hpos).mpr hlarge.le) (hcount.symm ▸ Nat.dvd_mul_left _ _)
  obtain ⟨d, rfl⟩ := Nat.exists_eq_add_of_le' hq
  have hchunks : 2 ^ (d + 10) = 2 ^ d * BLAKE3_CHUNK_LEN := Nat.pow_add 2 d 10
  have hfits : 2 ^ d * BLAKE3_CHUNK_LEN ≤ input.length := by
    rw [← hchunks]
    exact Nat.le_trans (Nat.pow_le_pow_right Nat.two_pos hqp) (Nat.log2_self_le hpos)
  rw [hcount, hchunks] at hdvd
  refine ⟨d, Nat.dvd_of_mul_dvd_mul_right (Nat.zero_lt_succ 1023) hdvd, hfits, ?_⟩
  rw [← UInt64.toNat_inj, hlen, hchunks, UInt64.toNat_ofNat', Nat.mod_eq_of_lt (by omega)]

theorem ofNat_chunks_div {c : Nat} (hc : c * BLAKE3_CHUNK_LEN < 2 ^ 64) :
    UInt64.ofNat (c * BLAKE3_CHUNK_LEN) / UInt64.ofNat BLAKE3_CHUNK_LEN = UInt64.ofNat c := by
  unfold BLAKE3_CHUNK_LEN at *
  rw [← UInt64.toNat_inj, UInt64.toNat_div, UInt64.toNat_ofNat', UInt64.toNat_ofNat',
    UInt64.toNat_ofNat', Nat.mod_eq_of_lt hc, Nat.mod_eq_of_lt (show 1024 < 2 ^ 64 by omega),
    Nat.mul_div_cancel _ (Nat.zero_lt_succ 1023), Nat.mod_eq_of_lt (by omega)]

/-- The counter of a clear chunk state moves on by the chunks of a subtree. -/
theorem Aligned.advance {self pushed : blake3_hasher} {front : List UInt8} {n : Nat}
    {stack : List (LeafTree Chunk)} (h : Aligned key flags self front n stack)
    (hsame : pushed.chunk = self.chunk) (c : Nat) :
    { pushed.chunk with chunk_counter := pushed.chunk.chunk_counter + UInt64.ofNat c } =
      chunkAt key flags (UInt64.ofNat (n + c)) := by
  rw [hsame, h.chunk_eq, UInt64.ofNat_add]
  rfl

theorem Absorbed.counter_eq {self : blake3_hasher} {front rest : List UInt8} {n : Nat}
    {stack : List (LeafTree Chunk)} (h : Absorbed key flags self front rest n stack) :
    self.chunk.chunk_counter = UInt64.ofNat n := by
  rw [h.chunk_eq, chunk_counter_chunkAt _ _ _ h.rest_le]

theorem Absorbed.chunk_state_len {self : blake3_hasher} {front rest : List UInt8} {n : Nat}
    {stack : List (LeafTree Chunk)} (h : Absorbed key flags self front rest n stack) :
    chunk_state_len self.chunk = rest.length := by
  rw [h.chunk_eq, chunk_state_len_chunkAt _ _ _ h.rest_le]

/-- Without bytes in the chunk state, the stack is empty or has two entries at least. -/
theorem Absorbed.nil_or_two_le {self : blake3_hasher} {front : List UInt8} {n : Nat}
    {stack : List (LeafTree Chunk)} (h : Absorbed key flags self front [] n stack) :
    stack = [] ∨ 2 ≤ stack.length := by
  cases stack with
  | nil => exact .inl rfl
  | cons t below =>
    refine .inr ((h.ready rfl).resolve_left ?_)
    rintro rfl
    have hsize := h.size
    have hpos := t.size_pos
    have hzero : n = 0 := (Nat.mul_eq_zero.mp h.length.symm).resolve_right (Nat.succ_ne_zero 1023)
    rw [stackSize_cons, hzero] at hsize
    omega

/-- Resetting keeps the key and the mode, and forgets the input. -/
theorem Represents.reset {self : blake3_hasher} {bytes : List UInt8}
    (h : Represents key flags self bytes) : Represents key flags (blake3_hasher_reset self) [] := by
  obtain ⟨_, _, _, _, _, hself⟩ := h
  have hreset : blake3_hasher_reset self = hasher_init_base key flags := by
    rw [blake3_hasher_reset, chunk_state_reset_eq, hself.key_eq, hself.flags_eq]
    rfl
  rw [hreset]
  exact represents_init key flags

end

section

variable {target : Target} (htarget : target.Conforms) {key : Vector UInt32 8} {flags : UInt8}

include htarget

/-- One chunk is pushed. -/
theorem Stacked.push_chunk {self : blake3_hasher} {front : List UInt8} {n : Nat}
    {stack : List (LeafTree Chunk)} (h : Stacked key flags self front n stack) {bytes : List UInt8}
    (hbytes : bytes.length = BLAKE3_CHUNK_LEN) (hn : n < 2 ^ 54) :
    ∃ pushed stack', hasher_push_cv target self (treeCv key flags (.leaf ⟨n, bytes⟩)) (UInt64.ofNat n) =
        some pushed ∧
      pushed.chunk = self.chunk ∧ Stacked key flags pushed (front ++ bytes) (n + 1) stack' := by
  have hsize := h.size
  have hcounter : (UInt64.ofNat n).toNat = stackSize stack := by
    rw [UInt64.toNat_ofNat', hsize]
    omega
  obtain ⟨merged, hpush, hcarries, hleaves, _⟩ := hasher_push_cv_spec htarget key flags self h.key_eq
    h.flags_eq h.stack_eq h.carries hcounter ⟨Complete.leaf ⟨n, bytes⟩, 0, rfl⟩ (Nat.one_dvd _)
    (hsize.symm ▸ hn)
  refine ⟨_, .leaf ⟨n, bytes⟩ :: merged, hpush, rfl, ?_, h.key_eq, h.flags_eq, rfl, hcarries, ?_⟩
  · rw [List.length_append, h.length, hbytes, Nat.succ_mul]
  · rw [hleaves, h.leaves, leadingChunks_append h.length, Nat.zero_add, leadingChunks,
      List.take_of_length_le hbytes.le]
    rfl

/-- The two halves of a subtree are pushed one after the other, and the second one
stays unmerged. -/
theorem Stacked.push_subtree {self : blake3_hasher} {front : List UInt8} {n : Nat}
    {stack : List (LeafTree Chunk)} (h : Stacked key flags self front n stack) {bytes : List UInt8}
    {m : Nat} (hbytes : bytes.length = 2 ^ (m + 1) * BLAKE3_CHUNK_LEN) (haligned : 2 ^ (m + 1) ∣ n)
    (hn : n + 2 ^ m < 2 ^ 54) :
    ∃ pushed_left pushed stack',
      hasher_push_cv target self
          (treeCv key flags (hashTree n (bytes.take (leftChunks bytes * BLAKE3_CHUNK_LEN))))
          (UInt64.ofNat n) = some pushed_left ∧
      hasher_push_cv target pushed_left
          (treeCv key flags (hashTree (n + leftChunks bytes)
            (bytes.drop (leftChunks bytes * BLAKE3_CHUNK_LEN))))
          (UInt64.ofNat (n + 2 ^ m)) = some pushed ∧
      pushed_left.chunk = self.chunk ∧ pushed.chunk = self.chunk ∧
      Stacked key flags pushed (front ++ bytes) (n + 2 ^ (m + 1)) stack' ∧ 2 ≤ stack'.length := by
  have hpow := Nat.two_pow_pos m
  have hlarge : bytes.length > BLAKE3_CHUNK_LEN := by
    rw [hbytes, Nat.pow_succ]
    unfold BLAKE3_CHUNK_LEN
    omega
  have hnode := hashTree_node hlarge n
  generalize hashTree n (bytes.take (leftChunks bytes * BLAKE3_CHUNK_LEN)) = l at *
  generalize hashTree (n + leftChunks bytes) (bytes.drop (leftChunks bytes * BLAKE3_CHUNK_LEN)) = r
    at *
  obtain ⟨hl, hlsize, hr, hrsize, hleaves⟩ := hashTree_halves hbytes n hnode
  have hsize := h.size
  have hdvd : 2 ^ m ∣ n := Nat.dvd_trans (Nat.pow_dvd_pow 2 (Nat.le_succ m)) haligned
  have hcounter : (UInt64.ofNat n).toNat = stackSize stack := by
    rw [UInt64.toNat_ofNat', hsize]
    omega
  obtain ⟨merged, hpush, hcarries, hpushed, _⟩ := hasher_push_cv_spec htarget key flags self h.key_eq
    h.flags_eq h.stack_eq h.carries hcounter ⟨hl, m, hlsize⟩ (by rw [hlsize, hsize]; exact hdvd)
    (by omega)
  have hsize' : stackSize (l :: merged) = n + 2 ^ m := by
    rw [stackSize, hpushed, List.length_append, ← hlsize, ← hsize]
    rfl
  have hcounter' : (UInt64.ofNat (n + 2 ^ m)).toNat = stackSize (l :: merged) := by
    rw [UInt64.toNat_ofNat', hsize']
    omega
  obtain ⟨merged', hpush', hcarries', hpushed', hbelow⟩ := hasher_push_cv_spec htarget key flags
    { self with cv_stack := (l :: merged).map (treeCv key flags) } h.key_eq h.flags_eq rfl
    hcarries hcounter' ⟨hr, m, hrsize⟩
    (by rw [hrsize, hsize']; exact Nat.dvd_add hdvd (Nat.dvd_refl _)) (by omega)
  have hmerged : merged' ≠ [] := by
    rintro rfl
    have hlength := congrArg List.length hbelow
    change 0 = stackSize (l :: merged) at hlength
    omega
  refine ⟨_, _, r :: merged', hpush, hpush', rfl, rfl, ⟨?_, h.key_eq, h.flags_eq, rfl, hcarries', ?_⟩,
    ?_⟩
  · rw [List.length_append, h.length, hbytes, Nat.add_mul]
  · rw [hpushed', hpushed, h.leaves, leadingChunks_append h.length, Nat.zero_add, ← hleaves,
      List.append_assoc]
  · exact Nat.succ_le_succ (List.length_pos_iff.mpr hmerged)

/-- The pass of the loop that shrinks its subtree to one chunk. -/
theorem Aligned.update_chunk {self : blake3_hasher} {front : List UInt8} {n : Nat}
    {stack : List (LeafTree Chunk)} (h : Aligned key flags self front n stack) {input : List UInt8}
    (hlarge : BLAKE3_CHUNK_LEN < input.length) (hn : n < 2 ^ 54)
    (hshrink : shrink_subtree_len (round_down_to_power_of_2 (UInt64.ofNat input.length))
      (self.chunk.chunk_counter * UInt64.ofNat BLAKE3_CHUNK_LEN) = UInt64.ofNat BLAKE3_CHUNK_LEN) :
    ∃ self' stack',
      hasher_update_subtrees target self input =
        hasher_update_subtrees target self' (input.drop BLAKE3_CHUNK_LEN) ∧
      Aligned key flags self' (front ++ input.take BLAKE3_CHUNK_LEN) (n + 1) stack' := by
  have htake : (input.take BLAKE3_CHUNK_LEN).length = BLAKE3_CHUNK_LEN :=
    List.length_take_of_le hlarge.le
  have hlen : (UInt64.ofNat BLAKE3_CHUNK_LEN).toNat = BLAKE3_CHUNK_LEN := rfl
  have hone : UInt64.ofNat BLAKE3_CHUNK_LEN / UInt64.ofNat BLAKE3_CHUNK_LEN = UInt64.ofNat 1 := rfl
  obtain ⟨pushed, stack', hpush, hsame, hnext⟩ := h.push_chunk htarget htake hn
  have hchunk : chunkAt self.key self.chunk.flags self.chunk.chunk_counter =
      chunkAt key flags (UInt64.ofNat n) := by
    rw [h.key_eq, h.flags_eq, h.counter_eq]
  have hsame_counter := chunk_counter_chunkAt key flags (UInt64.ofNat n) htake.le
  rw [← chunk_state_update_chunkAt htarget, ← hchunk] at hsame_counter
  rw [← chunk_cv_eq key flags n htarget htake.le, ← hchunk, ← hsame_counter] at hpush
  unfold chunkAt at hpush
  refine ⟨{ pushed with chunk := chunkAt key flags (UInt64.ofNat (n + 1)) }, stack', ?_, hnext.clear⟩
  rw [hasher_update_subtrees, if_pos hlarge, ← h.advance hsame]
  simp only [hshrink, hlen, hone]
  rw [if_pos (UInt64.le_refl _), hpush]
  rfl

/-- The pass of the loop over a larger subtree: its two halves stay on the stack. -/
theorem Aligned.update_halves {self : blake3_hasher} {front : List UInt8}
    {n m : Nat} {stack : List (LeafTree Chunk)} (h : Aligned key flags self front n stack)
    {input : List UInt8} (hsize : (front ++ input).length < 2 ^ 64) (haligned : 2 ^ (m + 1) ∣ n)
    (hfits : 2 ^ (m + 1) * BLAKE3_CHUNK_LEN ≤ input.length)
    (hshrink : shrink_subtree_len (round_down_to_power_of_2 (UInt64.ofNat input.length))
      (self.chunk.chunk_counter * UInt64.ofNat BLAKE3_CHUNK_LEN) =
        UInt64.ofNat (2 ^ (m + 1) * BLAKE3_CHUNK_LEN)) :
    ∃ self' stack',
      hasher_update_subtrees target self input =
        hasher_update_subtrees target self' (input.drop (2 ^ (m + 1) * BLAKE3_CHUNK_LEN)) ∧
      Aligned key flags self' (front ++ input.take (2 ^ (m + 1) * BLAKE3_CHUNK_LEN))
        (n + 2 ^ (m + 1)) stack' ∧
      2 ≤ stack'.length := by
  have htake : (input.take (2 ^ (m + 1) * BLAKE3_CHUNK_LEN)).length =
      2 ^ (m + 1) * BLAKE3_CHUNK_LEN := List.length_take_of_le hfits
  rw [List.length_append, h.length] at hsize
  have hpow : 2 ^ (m + 1) = 2 ^ m + 2 ^ m := by
    rw [Nat.pow_succ]
    omega
  have hpos := Nat.two_pow_pos m
  have hn : n + 2 ^ (m + 1) ≤ 2 ^ 54 := by
    unfold BLAKE3_CHUNK_LEN at *
    omega
  have hlen : (UInt64.ofNat (2 ^ (m + 1) * BLAKE3_CHUNK_LEN)).toNat =
      2 ^ (m + 1) * BLAKE3_CHUNK_LEN := by
    rw [UInt64.toNat_ofNat', Nat.mod_eq_of_lt (by omega)]
  have hchunks := ofNat_chunks_div (c := 2 ^ (m + 1)) (by omega)
  have hdouble : BLAKE3_CHUNK_LEN < 2 ^ (m + 1) * BLAKE3_CHUNK_LEN := by
    unfold BLAKE3_CHUNK_LEN
    omega
  have hmany : ¬ UInt64.ofNat (2 ^ (m + 1) * BLAKE3_CHUNK_LEN) ≤ UInt64.ofNat BLAKE3_CHUNK_LEN := by
    rw [UInt64.le_iff_toNat_le, hlen, not_le]
    exact hdouble
  have hhalf : UInt64.ofNat n + UInt64.ofNat (2 ^ (m + 1)) / 2 = UInt64.ofNat (n + 2 ^ m) := by
    have hdiv : UInt64.ofNat (2 ^ (m + 1)) / 2 = UInt64.ofNat (2 ^ m) := by
      rw [← UInt64.toNat_inj, UInt64.toNat_div, UInt64.toNat_ofNat', UInt64.toNat_ofNat',
        Nat.mod_eq_of_lt (by omega), Nat.mod_eq_of_lt (by omega), Nat.pow_succ]
      exact Nat.mul_div_cancel _ Nat.two_pos
    rw [hdiv, UInt64.ofNat_add]
  obtain ⟨pushed_left, pushed, stack', hleft, hright, hsame_left, hsame, hnext, htwo⟩ :=
    h.push_subtree htarget htake haligned (by omega)
  have hnode := compress_subtree_to_parent_node_eq htarget key flags (htake.symm ▸ hdouble)
    (by rw [htake]; omega) n
  rw [← hhalf] at hright
  rw [← h.counter_eq] at hnode hleft hright
  rw [← h.key_eq, ← h.flags_eq] at hnode
  refine ⟨{ pushed with chunk := chunkAt key flags (UInt64.ofNat (n + 2 ^ (m + 1))) }, stack', ?_,
    hnext.clear, htwo⟩
  rw [hasher_update_subtrees, if_pos (hdouble.trans_le hfits), ← h.advance hsame]
  simp only [hshrink, hchunks, hlen]
  rw [if_neg hmany, hnode]
  simp only [h.key_eq, h.flags_eq, Option.bind_eq_bind, Option.bind_some, hleft]
  rw [hsame_left, hright]
  rfl

/-- What one pass of the loop does: it takes whole chunks off the input, and where it
takes all of it, the two halves of the last subtree are on the stack. -/
theorem Aligned.update_step {self : blake3_hasher} {front : List UInt8} {n : Nat}
    {stack : List (LeafTree Chunk)} (h : Aligned key flags self front n stack) {input : List UInt8}
    (hlarge : BLAKE3_CHUNK_LEN < input.length) (hsize : (front ++ input).length < 2 ^ 64) :
    ∃ self' c stack', 0 < c ∧ c * BLAKE3_CHUNK_LEN ≤ input.length ∧
      hasher_update_subtrees target self input =
        hasher_update_subtrees target self' (input.drop (c * BLAKE3_CHUNK_LEN)) ∧
      Aligned key flags self' (front ++ input.take (c * BLAKE3_CHUNK_LEN)) (n + c) stack' ∧
      (input.length = c * BLAKE3_CHUNK_LEN → 2 ≤ stack'.length) := by
  obtain ⟨d, haligned, hfits, hshrink⟩ := h.exists_subtree_len hlarge hsize
  cases d with
  | zero =>
    have hn : n < 2 ^ 54 := by
      rw [List.length_append, h.length] at hsize
      unfold BLAKE3_CHUNK_LEN at *
      omega
    rw [Nat.pow_zero, Nat.one_mul] at hshrink hfits
    obtain ⟨self', stack', hstep, hnext⟩ := h.update_chunk htarget hlarge hn hshrink
    refine ⟨self', 1, stack', Nat.one_pos, ?_⟩
    rw [Nat.one_mul]
    exact ⟨hfits, hstep, hnext, fun hall => absurd hlarge hall.not_gt⟩
  | succ m =>
    obtain ⟨self', stack', hstep, hnext, htwo⟩ :=
      h.update_halves htarget hsize haligned hfits hshrink
    exact ⟨self', 2 ^ (m + 1), stack', Nat.two_pow_pos _, hfits, hstep, hnext, fun _ => htwo⟩

/-- The whole loop leaves one chunk of input at most, and nothing only if the stack is
ready to be finalized. -/
theorem Aligned.update_subtrees {self : blake3_hasher} {front : List UInt8}
    {n : Nat} {stack : List (LeafTree Chunk)} (h : Aligned key flags self front n stack)
    {input : List UInt8} (hsize : (front ++ input).length < 2 ^ 64)
    (hready : input = [] → 2 ≤ stack.length) :
    ∃ self' taken rest n' stack', input = taken ++ rest ∧
      hasher_update_subtrees target self input = some (self', rest) ∧
      Aligned key flags self' (front ++ taken) n' stack' ∧ rest.length ≤ BLAKE3_CHUNK_LEN ∧
      (rest = [] → 2 ≤ stack'.length) := by
  induction hlen : input.length using Nat.strong_induction_on
    generalizing self front n stack input with
  | _ len ih =>
    subst hlen
    by_cases hlarge : BLAKE3_CHUNK_LEN < input.length
    · obtain ⟨next, c, stack', hc, hle, hstep, hnext, htwo⟩ := h.update_step htarget hlarge hsize
      have hbytes : 0 < c * BLAKE3_CHUNK_LEN := Nat.mul_pos hc (Nat.zero_lt_succ 1023)
      have hsame : front ++ input.take (c * BLAKE3_CHUNK_LEN) ++ input.drop (c * BLAKE3_CHUNK_LEN) =
          front ++ input := by
        rw [List.append_assoc, List.take_append_drop]
      have hempty : input.drop (c * BLAKE3_CHUNK_LEN) = [] → 2 ≤ stack'.length := fun hnil =>
        htwo (Nat.le_antisymm (List.drop_eq_nil_iff.mp hnil) hle)
      obtain ⟨self', taken, rest, n', last, hsplit, hloop, hself', hrest, hlast⟩ :=
        ih (input.drop (c * BLAKE3_CHUNK_LEN)).length (by rw [List.length_drop]; omega) hnext
          (hsame.symm ▸ hsize) hempty rfl
      refine ⟨self', input.take (c * BLAKE3_CHUNK_LEN) ++ taken, rest, n', last, ?_,
        hstep.trans hloop, ?_, hrest, hlast⟩
      · rw [List.append_assoc, ← hsplit, List.take_append_drop]
      · rw [← List.append_assoc]
        exact hself'
    · refine ⟨self, [], input, n, stack, rfl, ?_, ?_, Nat.not_lt.mp hlarge, hready⟩
      · rw [hasher_update_subtrees, if_neg hlarge]
        rfl
      · rw [List.append_nil]
        exact h

/-- The part of an update that starts with a clear chunk state. -/
theorem Aligned.update_clear {self : blake3_hasher} {front : List UInt8} {n : Nat}
    {stack : List (LeafTree Chunk)} (h : Aligned key flags self front n stack) {input : List UInt8}
    (hsize : (front ++ input).length < 2 ^ 64) (hne : input ≠ []) :
    ∃ self', hasher_update_clear target self input = some self' ∧
      Represents key flags self' (front ++ input) := by
  obtain ⟨next, taken, rest, n', stack', rfl, hloop, hnext, hrest, hready⟩ :=
    h.update_subtrees htarget hsize (fun hnil => absurd hnil hne)
  unfold hasher_update_clear
  simp only [hloop, Option.bind_eq_bind, Option.bind_some]
  by_cases hpos : rest.length > 0
  · have hafter : chunk_state_update target next.chunk rest =
        (chunkAt key flags (UInt64.ofNat n')).after rest := by
      rw [hnext.chunk_eq, chunk_state_update_chunkAt htarget]
    have hcounter := chunk_counter_chunkAt key flags (UInt64.ofNat n') hrest
    have hflags := flags_chunkAt key flags (UInt64.ofNat n') hrest
    have hn : n' < 2 ^ 64 := by
      have hlength := hnext.length
      simp only [List.length_append] at hsize hlength
      unfold BLAKE3_CHUNK_LEN at hlength
      omega
    have htotal : ((chunkAt key flags (UInt64.ofNat n')).after rest).chunk_counter.toNat =
        stackSize stack' := by
      rw [hcounter, hnext.size]
      exact (UInt64.toNat_ofNat' ..).trans (Nat.mod_eq_of_lt hn)
    obtain ⟨merged, hmerge, hone, hleaves⟩ := hasher_merge_cv_stack_spec htarget key flags
      { next with chunk := (chunkAt key flags (UInt64.ofNat n')).after rest } hnext.key_eq hflags
      hnext.stack_eq hnext.carries htotal
    rw [if_pos hpos, hafter]
    exact ⟨_, hmerge, front ++ taken, rest, n', merged, (List.append_assoc ..).symm,
      ⟨hnext.length, hnext.key_eq, hflags, rfl, hone.mono (Nat.zero_le 1),
        hleaves.trans hnext.leaves⟩,
      hrest, rfl, fun _ => hone, fun hnil => absurd hnil (List.length_pos_iff.mp hpos)⟩
  · obtain rfl : rest = [] := List.length_eq_zero_iff.mp (Nat.eq_zero_of_not_pos hpos)
    refine ⟨next, if_neg hpos, front ++ taken, [], n', stack', by simp, hnext.toStacked,
      Nat.zero_le _, ?_, fun hnil => absurd rfl hnil, fun _ => .inr (hready rfl)⟩
    rw [after_nil, hnext.chunk_eq]

/-- Bytes that fit into the chunk under way only go there. -/
theorem Absorbed.take_in {self : blake3_hasher} {front rest input : List UInt8} {n : Nat}
    {stack : List (LeafTree Chunk)} (h : Absorbed key flags self front rest n stack)
    (hrest : rest ≠ []) (hroom : (rest ++ input).length ≤ BLAKE3_CHUNK_LEN) :
    Absorbed key flags { self with chunk := chunk_state_update target self.chunk input } front
      (rest ++ input) n stack := by
  have hchunk : chunk_state_update target self.chunk input =
      (chunkAt key flags (UInt64.ofNat n)).after (rest ++ input) := by
    rw [h.chunk_eq, chunk_state_update_after htarget]
  have hflags : (chunk_state_update target self.chunk input).flags = flags := by
    rw [hchunk]
    exact flags_chunkAt key flags (UInt64.ofNat n) hroom
  exact ⟨⟨h.length, h.key_eq, hflags, h.stack_eq, h.carries, h.leaves⟩, hroom, hchunk,
    fun _ => h.merged hrest, fun hnil => absurd (List.append_eq_nil_iff.mp hnil).1 hrest⟩

/-- A chunk that is full goes onto the stack, and the next one starts. -/
theorem Absorbed.push_full {self : blake3_hasher} {front rest : List UInt8} {n : Nat}
    {stack : List (LeafTree Chunk)} (h : Absorbed key flags self front rest n stack)
    (hfull : rest.length = BLAKE3_CHUNK_LEN) (hn : n < 2 ^ 54) :
    ∃ pushed stack',
      hasher_push_cv target self (output_chaining_value target (chunk_state_output self.chunk))
        self.chunk.chunk_counter = some pushed ∧
      Aligned key flags
        { pushed with
          chunk := chunk_state_reset pushed.chunk pushed.key (pushed.chunk.chunk_counter + 1) }
        (front ++ rest) (n + 1) stack' := by
  obtain ⟨pushed, stack', hpush, hsame, hpushed⟩ := h.toStacked.push_chunk htarget hfull hn
  have hcv := chunk_cv_eq key flags n htarget hfull.le
  rw [chunk_state_update_chunkAt htarget, ← h.chunk_eq] at hcv
  rw [← hcv, ← h.counter_eq] at hpush
  have hreset : chunk_state_reset pushed.chunk pushed.key (pushed.chunk.chunk_counter + 1) =
      chunkAt key flags (UInt64.ofNat (n + 1)) := by
    rw [chunk_state_reset_eq, hpushed.key_eq, hpushed.flags_eq, hsame, h.counter_eq,
      UInt64.ofNat_add]
    rfl
  refine ⟨pushed, stack', hpush, ?_⟩
  rw [hreset]
  exact hpushed.clear

/-- The step lemma of the hasher: every update succeeds, at every degree, and appends
its input to what was taken in before. -/
theorem Represents.update {self : blake3_hasher} {bytes : List UInt8}
    (h : Represents key flags self bytes) (input : List UInt8)
    (hsize : (bytes ++ input).length < 2 ^ 64) :
    ∃ self', blake3_hasher_update target self input = some self' ∧
      Represents key flags self' (bytes ++ input) := by
  by_cases hnil : input = []
  · subst hnil
    rw [List.append_nil]
    exact ⟨self, if_pos rfl, h⟩
  obtain ⟨front, rest, n, stack, rfl, hself⟩ := h
  have hinput : ¬ input.length = 0 := fun hzero => hnil (List.length_eq_zero_iff.mp hzero)
  rw [blake3_hasher_update, if_neg hinput, hself.chunk_state_len]
  by_cases hclear : rest.length > 0
  · have hrest : rest ≠ [] := List.length_pos_iff.mp hclear
    have hrest_le := hself.rest_le
    have htake : (if BLAKE3_CHUNK_LEN - rest.length > input.length then input.length
        else BLAKE3_CHUNK_LEN - rest.length) = min (BLAKE3_CHUNK_LEN - rest.length) input.length := by
      split_ifs
      · omega
      · omega
    simp only [if_pos hclear, htake]
    by_cases hfits : rest.length + input.length ≤ BLAKE3_CHUNK_LEN
    · have hmin : min (BLAKE3_CHUNK_LEN - rest.length) input.length = input.length := by omega
      have hroom : (rest ++ input).length ≤ BLAKE3_CHUNK_LEN := by
        rw [List.length_append]
        exact hfits
      simp only [hmin, List.take_length, List.drop_length]
      exact ⟨_, rfl, front, rest ++ input, n, stack, List.append_assoc ..,
        hself.take_in htarget hrest hroom⟩
    · have hmin : min (BLAKE3_CHUNK_LEN - rest.length) input.length =
          BLAKE3_CHUNK_LEN - rest.length := by omega
      have hfull : (rest ++ input.take (BLAKE3_CHUNK_LEN - rest.length)).length =
          BLAKE3_CHUNK_LEN := by
        rw [List.length_append, List.length_take]
        omega
      have hmore : (input.drop (BLAKE3_CHUNK_LEN - rest.length)).length > 0 := by
        rw [List.length_drop]
        omega
      have hbytes : front ++ (rest ++ input.take (BLAKE3_CHUNK_LEN - rest.length)) ++
          input.drop (BLAKE3_CHUNK_LEN - rest.length) = front ++ rest ++ input := by
        rw [List.append_assoc, List.append_assoc, List.append_assoc, List.take_append_drop]
      have hn : n < 2 ^ 54 := by
        have hlength := hself.length
        simp only [List.length_append] at hsize
        unfold BLAKE3_CHUNK_LEN at *
        omega
      -- the chunk under way is filled first, and pushed because more input follows
      obtain ⟨pushed, stack', hpush, hpushed⟩ :=
        (hself.take_in htarget hrest hfull.le).push_full htarget hfull hn
      rw [← hbytes] at hsize ⊢
      simp only [hmin, if_pos hmore, hpush, Option.bind_eq_bind, Option.bind_some]
      exact hpushed.update_clear htarget hsize (List.length_pos_iff.mp hmore)
  · obtain rfl : rest = [] := List.length_eq_zero_iff.mp (Nat.eq_zero_of_not_pos hclear)
    rw [if_neg hclear, List.append_nil]
    rw [List.append_nil] at hsize
    have haligned : Aligned key flags self front n stack :=
      ⟨hself.toStacked, hself.chunk_eq.trans (after_nil _ _ _)⟩
    exact haligned.update_clear htarget hsize hnil

end

end ryefs
