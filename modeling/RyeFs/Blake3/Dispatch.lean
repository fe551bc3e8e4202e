import RyeFs.Blake3.Portable

namespace ryefs

def SSE2 : UInt32 := (1 : UInt32) <<< 0
def SSE41 : UInt32 := (1 : UInt32) <<< 2
def AVX2 : UInt32 := (1 : UInt32) <<< 4
def AVX512F : UInt32 := (1 : UInt32) <<< 5
def AVX512VL : UInt32 := (1 : UInt32) <<< 6

/-- `cv`, `block`, `block_len`, `counter` and `flags`, and the chaining value after them. -/
abbrev CompressInPlace :=
  Vector UInt32 8 → Vector UInt8 64 → UInt8 → UInt64 → UInt8 → Vector UInt32 8

abbrev CompressXof :=
  Vector UInt32 8 → Vector UInt8 64 → UInt8 → UInt64 → UInt8 → Vector UInt8 64

/-- The last argument is the number of blocks to write. -/
abbrev XofMany :=
  Vector UInt32 8 → Vector UInt8 64 → UInt8 → UInt64 → UInt8 → (outblocks : Nat) →
    Vector (Vector UInt8 64) outblocks

/-- One chaining value is written for each of the `inputs`. -/
abbrev HashMany :=
  (inputs : List (List UInt8)) → (blocks : Nat) → Vector UInt32 8 → UInt64 →
    (increment_counter : Bool) → (flags flags_start flags_end : UInt8) →
    Vector (Vector UInt8 32) inputs.length

/-- The routines for vector units. The sources declare them and leave their code to other
files, which are not part of the repository. -/
structure VectorRoutines where
  blake3_compress_in_place_sse2 : CompressInPlace
  blake3_compress_in_place_sse41 : CompressInPlace
  blake3_compress_in_place_avx512 : CompressInPlace
  blake3_compress_xof_sse2 : CompressXof
  blake3_compress_xof_sse41 : CompressXof
  blake3_compress_xof_avx512 : CompressXof
  blake3_xof_many_avx512 : XofMany
  blake3_hash_many_sse2 : HashMany
  blake3_hash_many_sse41 : HashMany
  blake3_hash_many_avx2 : HashMany
  blake3_hash_many_avx512 : HashMany
  blake3_hash_many_neon : HashMany

/-- The routine agrees with the portable one wherever it is called: on inputs that hold
as many blocks as it reads. -/
def HashMany.Conforms (hash_many : HashMany) : Prop :=
  ∀ inputs blocks key counter increment_counter flags flags_start flags_end, 0 < blocks →
    (∀ input ∈ inputs, blocks * BLAKE3_BLOCK_LEN ≤ input.length) →
    (hash_many inputs blocks key counter increment_counter flags flags_start flags_end).toList =
      blake3_hash_many_portable inputs blocks key counter increment_counter flags flags_start flags_end

/-- At least one block is always written. -/
def XofMany.Conforms (xof_many : XofMany) : Prop :=
  ∀ cv block block_len counter flags outblocks, outblocks ≠ 0 →
    (xof_many cv block block_len counter flags outblocks).toList =
      (List.range outblocks).map fun i =>
        blake3_compress_xof_portable cv block block_len (counter + UInt64.ofNat i) flags

/-- What the dispatchers rely on: vector code computes what the portable code does. -/
structure VectorRoutines.Conforms (routines : VectorRoutines) : Prop where
  compress_in_place : ∀ routine ∈ [routines.blake3_compress_in_place_sse2,
    routines.blake3_compress_in_place_sse41, routines.blake3_compress_in_place_avx512],
    routine = blake3_compress_in_place_portable
  compress_xof : ∀ routine ∈ [routines.blake3_compress_xof_sse2,
    routines.blake3_compress_xof_sse41, routines.blake3_compress_xof_avx512],
    routine = blake3_compress_xof_portable
  xof_many : routines.blake3_xof_many_avx512.Conforms
  hash_many : ∀ routine ∈ [routines.blake3_hash_many_sse2, routines.blake3_hash_many_sse41,
    routines.blake3_hash_many_avx2, routines.blake3_hash_many_avx512,
    routines.blake3_hash_many_neon], routine.Conforms

/-- What the dispatchers choose by: the processor family, the macros that switch vector
code off, and the features that the processor reports. -/
structure Target extends VectorRoutines where
  is_x86 : Bool
  is_windows : Bool
  use_neon : Bool
  no_sse2 : Bool
  no_sse41 : Bool
  no_avx2 : Bool
  no_avx512 : Bool
  features : UInt32

def Target.MAX_SIMD_DEGREE (target : Target) : Nat :=
  if target.is_x86 then 16 else if target.use_neon then 4 else 1

def Target.MAX_SIMD_DEGREE_OR_2 (target : Target) : Nat :=
  if target.MAX_SIMD_DEGREE > 2 then target.MAX_SIMD_DEGREE else 2

section

variable (target : Target)

def blake3_compress_in_place (cv : Vector UInt32 8) (block : Vector UInt8 64) (block_len : UInt8)
    (counter : UInt64) (flags : UInt8) : Vector UInt32 8 :=
  if target.is_x86 ∧ ¬ target.no_avx512 ∧ target.features &&& AVX512VL ≠ 0 then
    target.blake3_compress_in_place_avx512 cv block block_len counter flags
  else if target.is_x86 ∧ ¬ target.no_sse41 ∧ target.features &&& SSE41 ≠ 0 then
    target.blake3_compress_in_place_sse41 cv block block_len counter flags
  else if target.is_x86 ∧ ¬ target.no_sse2 ∧ target.features &&& SSE2 ≠ 0 then
    target.blake3_compress_in_place_sse2 cv block block_len counter flags
  else blake3_compress_in_place_portable cv block block_len counter flags

def blake3_compress_xof (cv : Vector UInt32 8) (block : Vector UInt8 64) (block_len : UInt8)
    (counter : UInt64) (flags : UInt8) : Vector UInt8 64 :=
  if target.is_x86 ∧ ¬ target.no_avx512 ∧ target.features &&& AVX512VL ≠ 0 then
    target.blake3_compress_xof_avx512 cv block block_len counter flags
  else if target.is_x86 ∧ ¬ target.no_sse41 ∧ target.features &&& SSE41 ≠ 0 then
    target.blake3_compress_xof_sse41 cv block block_len counter flags
  else if target.is_x86 ∧ ¬ target.no_sse2 ∧ target.features &&& SSE2 ≠ 0 then
    target.blake3_compress_xof_sse2 cv block block_len counter flags
  else blake3_compress_xof_portable cv block block_len counter flags

/-- The vector routine must not be asked for no block at all. -/
def blake3_xof_many (cv : Vector UInt32 8) (block : Vector UInt8 64) (block_len : UInt8)
    (counter : UInt64) (flags : UInt8) (outblocks : Nat) : List UInt8 :=
  if outblocks = 0 then []
  else if target.is_x86 ∧ ¬ target.is_windows ∧ ¬ target.no_avx512 ∧
      target.features &&& AVX512VL ≠ 0 then
    (target.blake3_xof_many_avx512 cv block block_len counter flags outblocks).toList.flatMap
      Vector.toList
  else
    (List.range outblocks).flatMap fun i =>
      (blake3_compress_xof target cv block block_len (counter + UInt64.ofNat i) flags).toList

def blake3_hash_many (inputs : List (List UInt8)) (blocks : Nat) (key : Vector UInt32 8)
    (counter : UInt64) (increment_counter : Bool) (flags flags_start flags_end : UInt8) :
    List (Vector UInt8 32) :=
  if target.is_x86 ∧ ¬ target.no_avx512 ∧
      target.features &&& (AVX512F ||| AVX512VL) = AVX512F ||| AVX512VL then
    (target.blake3_hash_many_avx512 inputs blocks key counter increment_counter flags flags_start
      flags_end).toList
  else if target.is_x86 ∧ ¬ target.no_avx2 ∧ target.features &&& AVX2 ≠ 0 then
    (target.blake3_hash_many_avx2 inputs blocks key counter increment_counter flags flags_start
      flags_end).toList
  else if target.is_x86 ∧ ¬ target.no_sse41 ∧ target.features &&& SSE41 ≠ 0 then
    (target.blake3_hash_many_sse41 inputs blocks key counter increment_counter flags flags_start
      flags_end).toList
  else if target.is_x86 ∧ ¬ target.no_sse2 ∧ target.features &&& SSE2 ≠ 0 then
    (target.blake3_hash_many_sse2 inputs blocks key counter increment_counter flags flags_start
      flags_end).toList
  else if target.use_neon then
    (target.blake3_hash_many_neon inputs blocks key counter increment_counter flags flags_start
      flags_end).toList
  else
    blake3_hash_many_portable inputs blocks key counter increment_counter flags flags_start flags_end

/-- The dynamically detected SIMD degree. -/
def blake3_simd_degree : Nat :=
  if target.is_x86 ∧ ¬ target.no_avx512 ∧
      target.features &&& (AVX512F ||| AVX512VL) = AVX512F ||| AVX512VL then 16
  else if target.is_x86 ∧ ¬ target.no_avx2 ∧ target.features &&& AVX2 ≠ 0 then 8
  else if target.is_x86 ∧ ¬ target.no_sse41 ∧ target.features &&& SSE41 ≠ 0 then 4
  else if target.is_x86 ∧ ¬ target.no_sse2 ∧ target.features &&& SSE2 ≠ 0 then 4
  else if target.use_neon then 4
  else 1

/-- Whatever the target, the degree is a power of two within the bound that the
buffers are sized for. -/
theorem blake3_simd_degree_spec :
    ∃ k, blake3_simd_degree target = 2 ^ k ∧ 2 ^ k ≤ target.MAX_SIMD_DEGREE := by
  have hx86 {k : Nat} (hle : 2 ^ k ≤ 16) (h : target.is_x86 = true) :
      2 ^ k ≤ target.MAX_SIMD_DEGREE := by
    rw [Target.MAX_SIMD_DEGREE, if_pos h]
    exact hle
  unfold blake3_simd_degree
  split_ifs with h512 h2 h41 hsse2 hneon
  · exact ⟨4, rfl, hx86 (by omega) h512.1⟩
  · exact ⟨3, rfl, hx86 (by omega) h2.1⟩
  · exact ⟨2, rfl, hx86 (by omega) h41.1⟩
  · exact ⟨2, rfl, hx86 (by omega) hsse2.1⟩
  · refine ⟨2, rfl, ?_⟩
    unfold Target.MAX_SIMD_DEGREE
    split_ifs
    · omega
    · omega
  · refine ⟨0, rfl, ?_⟩
    unfold Target.MAX_SIMD_DEGREE
    split_ifs
    all_goals omega

theorem blake3_simd_degree_pos : 0 < blake3_simd_degree target := by
  obtain ⟨k, hk, _⟩ := blake3_simd_degree_spec target
  rw [hk]
  exact Nat.two_pow_pos k

end

theorem length_hash_many_portable (inputs : List (List UInt8)) (blocks : Nat)
    (key : Vector UInt32 8) (counter : UInt64) (increment_counter : Bool)
    (flags flags_start flags_end : UInt8) :
    (blake3_hash_many_portable inputs blocks key counter increment_counter flags flags_start
      flags_end).length = inputs.length := by
  induction inputs generalizing counter with
  | nil => rfl
  | cons input inputs ih => rw [blake3_hash_many_portable, List.length_cons, ih, List.length_cons]

/-- The portable code in the form of a vector routine. -/
def hash_many_portable : HashMany :=
  fun inputs blocks key counter increment_counter flags flags_start flags_end =>
    ⟨(blake3_hash_many_portable inputs blocks key counter increment_counter flags flags_start
      flags_end).toArray, length_hash_many_portable ..⟩

def xof_many_portable : XofMany :=
  fun cv block block_len counter flags outblocks =>
    Vector.ofFn fun i : Fin outblocks =>
      blake3_compress_xof_portable cv block block_len (counter + UInt64.ofNat i) flags

theorem length_hash_many (target : Target) (inputs : List (List UInt8)) (blocks : Nat)
    (key : Vector UInt32 8) (counter : UInt64) (increment_counter : Bool)
    (flags flags_start flags_end : UInt8) :
    (blake3_hash_many target inputs blocks key counter increment_counter flags flags_start
      flags_end).length = inputs.length := by
  unfold blake3_hash_many
  split_ifs
  · exact Vector.length_toList
  · exact Vector.length_toList
  · exact Vector.length_toList
  · exact Vector.length_toList
  · exact Vector.length_toList
  · exact length_hash_many_portable ..

section

variable {target : Target} (htarget : target.Conforms)

include htarget

theorem blake3_compress_in_place_eq :
    blake3_compress_in_place target = blake3_compress_in_place_portable := by
  funext cv block block_len counter flags
  unfold blake3_compress_in_place
  split_ifs
  · rw [htarget.compress_in_place target.blake3_compress_in_place_avx512 (by simp)]
  · rw [htarget.compress_in_place target.blake3_compress_in_place_sse41 (by simp)]
  · rw [htarget.compress_in_place target.blake3_compress_in_place_sse2 (by simp)]
  · rfl

theorem blake3_compress_xof_eq : blake3_compress_xof target = blake3_compress_xof_portable := by
  funext cv block block_len counter flags
  unfold blake3_compress_xof
  split_ifs
  · rw [htarget.compress_xof target.blake3_compress_xof_avx512 (by simp)]
  · rw [htarget.compress_xof target.blake3_compress_xof_sse41 (by simp)]
  · rw [htarget.compress_xof target.blake3_compress_xof_sse2 (by simp)]
  · rfl

theorem blake3_xof_many_eq (cv : Vector UInt32 8) (block : Vector UInt8 64) (block_len : UInt8)
    (counter : UInt64) (flags : UInt8) (outblocks : Nat) :
    blake3_xof_many target cv block block_len counter flags outblocks =
      (List.range outblocks).flatMap fun i =>
        (blake3_compress_xof_portable cv block block_len (counter + UInt64.ofNat i) flags).toList := by
  unfold blake3_xof_many
  split_ifs with hnone
  · rw [hnone]
    rfl
  · rw [htarget.xof_many cv block block_len counter flags outblocks hnone, List.flatMap_map]
  · rw [blake3_compress_xof_eq htarget]

theorem blake3_hash_many_eq {inputs : List (List UInt8)} {blocks : Nat} (hblocks : 0 < blocks)
    (hinputs : ∀ input ∈ inputs, blocks * BLAKE3_BLOCK_LEN ≤ input.length) (key : Vector UInt32 8)
    (counter : UInt64) (increment_counter : Bool) (flags flags_start flags_end : UInt8) :
    blake3_hash_many target inputs blocks key counter increment_counter flags flags_start flags_end =
      blake3_hash_many_portable inputs blocks key counter increment_counter flags flags_start
        flags_end := by
  have hroutine {routine : HashMany} (hconforms : routine.Conforms) :=
    hconforms inputs blocks key counter increment_counter flags flags_start flags_end hblocks hinputs
  unfold blake3_hash_many
  split_ifs
  · exact hroutine (htarget.hash_many _ (by simp))
  · exact hroutine (htarget.hash_many _ (by simp))
  · exact hroutine (htarget.hash_many _ (by simp))
  · exact hroutine (htarget.hash_many _ (by simp))
  · exact hroutine (htarget.hash_many _ (by simp))
  · rfl

end

/-- Routines that run the portable code. -/
def portableRoutines : VectorRoutines where
  blake3_compress_in_place_sse2 := blake3_compress_in_place_portable
  blake3_compress_in_place_sse41 := blake3_compress_in_place_portable
  blake3_compress_in_place_avx512 := blake3_compress_in_place_portable
  blake3_compress_xof_sse2 := blake3_compress_xof_portable
  blake3_compress_xof_sse41 := blake3_compress_xof_portable
  blake3_compress_xof_avx512 := blake3_compress_xof_portable
  blake3_xof_many_avx512 := xof_many_portable
  blake3_hash_many_sse2 := hash_many_portable
  blake3_hash_many_sse41 := hash_many_portable
  blake3_hash_many_avx2 := hash_many_portable
  blake3_hash_many_avx512 := hash_many_portable
  blake3_hash_many_neon := hash_many_portable

theorem portableRoutines_conforms : portableRoutines.Conforms where
  compress_in_place := by simp [portableRoutines]
  compress_xof := by simp [portableRoutines]
  xof_many := by
    intro cv block block_len counter flags outblocks _
    change (xof_many_portable cv block block_len counter flags outblocks).toList = _
    apply List.ext_getElem
    · simp
    · intro i _ _
      simp [xof_many_portable]
  hash_many := by
    have hexact : hash_many_portable.Conforms := by
      intro inputs blocks key counter increment_counter flags flags_start flags_end _ _
      rfl
    simp [portableRoutines, hexact]

/-- The build of the repository on an x86 processor: every vector unit is switched off. -/
def portableTarget : Target where
  toVectorRoutines := portableRoutines
  is_x86 := true
  is_windows := false
  use_neon := false
  no_sse2 := true
  no_sse41 := true
  no_avx2 := true
  no_avx512 := true
  features := SSE2 ||| SSE41 ||| AVX2

/-- A build for processors with all of them. -/
def vectorTarget : Target where
  toVectorRoutines := portableRoutines
  is_x86 := true
  is_windows := false
  use_neon := false
  no_sse2 := false
  no_sse41 := false
  no_avx2 := false
  no_avx512 := false
  features := SSE2 ||| SSE41 ||| AVX2 ||| AVX512F ||| AVX512VL

theorem portableTarget_conforms : portableTarget.Conforms := portableRoutines_conforms

theorem vectorTarget_conforms : vectorTarget.Conforms := portableRoutines_conforms

end ryefs
