import RyeFs.Blake3.Hasher
import RyeFs.Lib.Tree
import RyeFs.Lib.Window

open hashtree windows

namespace ryefs

/-- A leaf of the hash tree: a piece of the input and its place in the order. -/
structure Chunk where
  index : Nat
  bytes : List UInt8
  deriving DecidableEq, Repr

/-- The chunks of an input. The empty input has one, and it is empty. -/
def chunksFrom (index : Nat) (input : List UInt8) : List Chunk :=
  if input.length > BLAKE3_CHUNK_LEN then
    ⟨index, input.take BLAKE3_CHUNK_LEN⟩ :: chunksFrom (index + 1) (input.drop BLAKE3_CHUNK_LEN)
  else [⟨index, input⟩]
termination_by input.length
decreasing_by
  unfold BLAKE3_CHUNK_LEN at *
  rw [List.length_drop]
  omega

/-- The number of whole chunks that go to the left: the largest power of two that
leaves something for the right. -/
def leftChunks (input : List UInt8) : Nat := 2 ^ ((input.length - 1) / BLAKE3_CHUNK_LEN).log2

theorem leftChunks_spec {input : List UInt8} (h : input.length > BLAKE3_CHUNK_LEN) :
    0 < leftChunks input ∧ leftChunks input * BLAKE3_CHUNK_LEN < input.length ∧
      input.length ≤ 2 * (leftChunks input * BLAKE3_CHUNK_LEN) := by
  unfold leftChunks BLAKE3_CHUNK_LEN at *
  have hne : (input.length - 1) / 1024 ≠ 0 := by omega
  have hlow := Nat.log2_self_le hne
  have hhigh := Nat.lt_log2_self (n := (input.length - 1) / 1024)
  rw [Nat.pow_succ] at hhigh
  omega

/-- The hash tree over an input. -/
def hashTree (index : Nat) (input : List UInt8) : LeafTree Chunk :=
  if input.length > BLAKE3_CHUNK_LEN then
    .node (hashTree index (input.take (leftChunks input * BLAKE3_CHUNK_LEN)))
      (hashTree (index + leftChunks input) (input.drop (leftChunks input * BLAKE3_CHUNK_LEN)))
  else .leaf ⟨index, input⟩
termination_by input.length
decreasing_by
  all_goals
    have hspec := leftChunks_spec (by assumption)
    unfold BLAKE3_CHUNK_LEN at *
    simp only [List.length_take, List.length_drop]
    omega

/-- All blocks but the last are compressed. The last one, which is empty only if
everything is, becomes the output. -/
def absorb (cv : Vector UInt32 8) (counter : UInt64) (flags start : UInt8) (bytes : List UInt8) :
    output_t :=
  if bytes.length > BLAKE3_BLOCK_LEN then
    absorb (blake3_compress_in_place_portable cv (block_at bytes) 64 counter (flags ||| start)) counter
      flags 0 (bytes.drop BLAKE3_BLOCK_LEN)
  else
    make_output cv (block_at bytes) (UInt8.ofNat bytes.length) counter (flags ||| start ||| CHUNK_END)
termination_by bytes.length
decreasing_by
  unfold BLAKE3_BLOCK_LEN at *
  rw [List.length_drop]
  omega

/-- The chaining value of a node that is not the root. -/
def chainingValue (c : output_t) : Vector UInt8 32 :=
  store_cv_words (blake3_compress_in_place_portable c.input_cv c.block c.block_len c.counter c.flags)

section

variable (key : Vector UInt32 8) (flags : UInt8)

def chunkOutput (chunk : Chunk) : output_t :=
  absorb key (UInt64.ofNat chunk.index) flags CHUNK_START chunk.bytes

def treeOutput : LeafTree Chunk → output_t
  | .leaf chunk => chunkOutput key flags chunk
  | .node l r =>
    parent_output (chainingValue (treeOutput l) ++ chainingValue (treeOutput r)) key flags

def treeCv (t : LeafTree Chunk) : Vector UInt8 32 := chainingValue (treeOutput key flags t)

/-- Byte `i` of the extended output of a root. -/
def rootByte (root : output_t) (i : Nat) : UInt8 :=
  (blake3_compress_xof_portable root.input_cv root.block root.block_len (UInt64.ofNat (i / 64))
    (root.flags ||| ROOT))[i % 64]

/-- The window of `out_len` bytes from `seek` on of the hash of an input. -/
def hashWindow (input : List UInt8) (seek out_len : Nat) : List UInt8 :=
  window (rootByte (treeOutput key flags (hashTree 0 input))) seek out_len

end

theorem chunksFrom_of_le {input : List UInt8} (h : input.length ≤ BLAKE3_CHUNK_LEN) (index : Nat) :
    chunksFrom index input = [⟨index, input⟩] := by
  rw [chunksFrom, if_neg (Nat.not_lt.mpr h)]

/-- The first `n` chunks of an input that has as many whole ones. -/
def leadingChunks (index : Nat) : Nat → List UInt8 → List Chunk
  | 0, _ => []
  | n + 1, input =>
    ⟨index, input.take BLAKE3_CHUNK_LEN⟩ ::
      leadingChunks (index + 1) n (input.drop BLAKE3_CHUNK_LEN)

@[simp] theorem length_leadingChunks (index n : Nat) (input : List UInt8) :
    (leadingChunks index n input).length = n := by
  induction n generalizing index input with
  | zero => rfl
  | succ n ih => rw [leadingChunks, List.length_cons, ih]

theorem leadingChunks_append {front : List UInt8} {n : Nat}
    (hfront : front.length = n * BLAKE3_CHUNK_LEN) (rest : List UInt8) (index m : Nat) :
    leadingChunks index (n + m) (front ++ rest) =
      leadingChunks index n front ++ leadingChunks (index + n) m rest := by
  induction n generalizing index front with
  | zero =>
    rw [Nat.zero_mul] at hfront
    rw [List.length_eq_zero_iff.mp hfront, Nat.zero_add]
    rfl
  | succ n ih =>
    rw [Nat.succ_mul] at hfront
    have hle : BLAKE3_CHUNK_LEN ≤ front.length := by omega
    have hdrop : (front.drop BLAKE3_CHUNK_LEN).length = n * BLAKE3_CHUNK_LEN := by
      rw [List.length_drop]
      omega
    rw [Nat.add_right_comm, leadingChunks, List.take_append_of_le_length hle,
      List.drop_append_of_le_length hle, ih hdrop, leadingChunks, List.cons_append,
      Nat.add_right_comm, Nat.add_assoc index n 1]

/-- What follows the leading chunks does not matter. -/
theorem leadingChunks_append_left {front : List UInt8} {n : Nat}
    (hfront : front.length = n * BLAKE3_CHUNK_LEN) (rest : List UInt8) (index : Nat) :
    leadingChunks index n (front ++ rest) = leadingChunks index n front := by
  have happend := leadingChunks_append hfront rest index 0
  rw [Nat.add_zero, leadingChunks, List.append_nil] at happend
  exact happend

/-- Whole chunks in front of something are the first leaves. -/
theorem chunksFrom_append {front rest : List UInt8} {n : Nat}
    (hfront : front.length = n * BLAKE3_CHUNK_LEN) (hrest : rest ≠ []) (index : Nat) :
    chunksFrom index (front ++ rest) = leadingChunks index n front ++ chunksFrom (index + n) rest := by
  have hpos := List.length_pos_iff.mpr hrest
  induction n generalizing index front with
  | zero =>
    rw [Nat.zero_mul] at hfront
    rw [List.length_eq_zero_iff.mp hfront]
    rfl
  | succ n ih =>
    rw [Nat.succ_mul] at hfront
    have hle : BLAKE3_CHUNK_LEN ≤ front.length := by omega
    have hlarge : (front ++ rest).length > BLAKE3_CHUNK_LEN := by
      rw [List.length_append]
      omega
    have hdrop : (front.drop BLAKE3_CHUNK_LEN).length = n * BLAKE3_CHUNK_LEN := by
      rw [List.length_drop]
      omega
    rw [chunksFrom, if_pos hlarge, List.take_append_of_le_length hle,
      List.drop_append_of_le_length hle, ih hdrop, leadingChunks, List.cons_append,
      Nat.add_right_comm, Nat.add_assoc index n 1]

/-- An input of whole chunks only, one of them at least. -/
theorem chunksFrom_eq_leadingChunks {input : List UInt8} {n : Nat}
    (hinput : input.length = (n + 1) * BLAKE3_CHUNK_LEN) (index : Nat) :
    chunksFrom index input = leadingChunks index (n + 1) input := by
  have hchunk : 0 < BLAKE3_CHUNK_LEN := Nat.zero_lt_succ _
  rw [Nat.succ_mul] at hinput
  have hfront : (input.take (n * BLAKE3_CHUNK_LEN)).length = n * BLAKE3_CHUNK_LEN := by
    rw [List.length_take]
    omega
  have hrest : (input.drop (n * BLAKE3_CHUNK_LEN)).length = BLAKE3_CHUNK_LEN := by
    rw [List.length_drop]
    omega
  have hne : input.drop (n * BLAKE3_CHUNK_LEN) ≠ [] := List.length_pos_iff.mp (by omega)
  have hlast : leadingChunks (index + n) 1 (input.drop (n * BLAKE3_CHUNK_LEN)) =
      chunksFrom (index + n) (input.drop (n * BLAKE3_CHUNK_LEN)) := by
    rw [chunksFrom_of_le hrest.le, leadingChunks, List.take_of_length_le hrest.le]
    rfl
  have happend := leadingChunks_append hfront (input.drop (n * BLAKE3_CHUNK_LEN)) index 1
  rw [hlast, ← chunksFrom_append hfront hne, List.take_append_drop] at happend
  exact happend.symm

theorem length_chunksFrom (index : Nat) (input : List UInt8) :
    (chunksFrom index input).length = (input.length - 1) / BLAKE3_CHUNK_LEN + 1 := by
  induction index, input using chunksFrom.induct with
  | case1 index input hlarge ih =>
    rw [chunksFrom, if_pos hlarge, List.length_cons, ih, List.length_drop]
    unfold BLAKE3_CHUNK_LEN at *
    omega
  | case2 index input hsmall =>
    rw [chunksFrom, if_neg hsmall, List.length_singleton]
    unfold BLAKE3_CHUNK_LEN at *
    omega

theorem leaves_hashTree (index : Nat) (input : List UInt8) :
    (hashTree index input).leaves = chunksFrom index input := by
  induction index, input using hashTree.induct with
  | case1 index input hlarge ihl ihr =>
    obtain ⟨hpos, hlt, _⟩ := leftChunks_spec hlarge
    have hleft : (input.take (leftChunks input * BLAKE3_CHUNK_LEN)).length =
        leftChunks input * BLAKE3_CHUNK_LEN := by
      rw [List.length_take]
      omega
    have hright : input.drop (leftChunks input * BLAKE3_CHUNK_LEN) ≠ [] := by
      apply List.length_pos_iff.mp
      rw [List.length_drop]
      omega
    obtain ⟨n, hn⟩ := Nat.exists_eq_add_one_of_ne_zero hpos.ne'
    have hleading : chunksFrom index (input.take (leftChunks input * BLAKE3_CHUNK_LEN)) =
        leadingChunks index (leftChunks input) (input.take (leftChunks input * BLAKE3_CHUNK_LEN)) := by
      rw [hn] at hleft ⊢
      exact chunksFrom_eq_leadingChunks hleft index
    rw [hashTree, if_pos hlarge, LeafTree.leaves, ihl, ihr, hleading, ← chunksFrom_append hleft hright,
      List.take_append_drop]
  | case2 index input hsmall =>
    rw [hashTree, if_neg hsmall, chunksFrom, if_neg hsmall]
    rfl

theorem size_hashTree (index : Nat) (input : List UInt8) :
    (hashTree index input).size = (input.length - 1) / BLAKE3_CHUNK_LEN + 1 := by
  rw [LeafTree.size, leaves_hashTree, length_chunksFrom]

/-- The hash tree is the complete tree over the chunks. -/
theorem complete_hashTree (index : Nat) (input : List UInt8) : Complete (hashTree index input) := by
  induction index, input using hashTree.induct with
  | case1 index input hlarge ihl ihr =>
    obtain ⟨hpos, hlt, hle⟩ := leftChunks_spec hlarge
    rw [hashTree, if_pos hlarge]
    refine Complete.node ((input.length - 1) / BLAKE3_CHUNK_LEN).log2 ihl ?_ ihr ?_
    · change _ = leftChunks input
      rw [size_hashTree, List.length_take]
      unfold BLAKE3_CHUNK_LEN at *
      omega
    · change _ ≤ leftChunks input
      rw [size_hashTree, List.length_drop]
      unfold BLAKE3_CHUNK_LEN at *
      omega
  | case2 index input hsmall =>
    rw [hashTree, if_neg hsmall]
    exact Complete.leaf _

/-- It is the only one. -/
theorem eq_hashTree {t : LeafTree Chunk} (ht : Complete t) {index : Nat} {input : List UInt8}
    (hleaves : t.leaves = chunksFrom index input) : t = hashTree index input :=
  ht.unique (complete_hashTree index input) (hleaves.trans (leaves_hashTree index input).symm)

end ryefs
