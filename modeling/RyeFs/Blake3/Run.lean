import RyeFs.Blake3.Finalize
import RyeFs.Lib.Machine

open bits hashtree machines windows

namespace ryefs

/-- The calls that a client can make on a hasher. -/
inductive Call where
  | update (input : List UInt8)
  | finalize_seek (seek out_len : UInt64)
  | reset
  deriving DecidableEq, Repr

/-- The code, call by call. Only finalization has an output. -/
def hasherMachine (target : Target) : Machine blake3_hasher Call (List UInt8) where
  step self
    | .update input => (blake3_hasher_update target self input).map fun self => (self, [])
    | .finalize_seek seek out_len =>
      (blake3_hasher_finalize_seek target self seek out_len).map fun out => (self, out)
    | .reset => some (blake3_hasher_reset self, [])

/-- What a hasher is for: it remembers its input, and answers with windows of the hash
of it. The input is measured in 64 bits. -/
def absorber (key : Vector UInt32 8) (flags : UInt8) : Machine (List UInt8) Call (List UInt8) where
  step bytes
    | .update input =>
      if (bytes ++ input).length < 2 ^ 64 then some (bytes ++ input, []) else none
    | .finalize_seek seek out_len =>
      some (bytes, hashWindow key flags bytes seek.toNat out_len.toNat)
    | .reset => some ([], [])

section

variable {key : Vector UInt32 8} {flags : UInt8}

theorem hasher_refines_absorber {target : Target} (htarget : target.Conforms) :
    Refines (Represents key flags) (hasherMachine target) (absorber key flags) := by
  intro self bytes h call bytes' out hstep
  cases call with
  | update input =>
    obtain ⟨hsize, hnext⟩ := Option.ite_none_right_eq_some.mp hstep
    obtain ⟨rfl, rfl⟩ := Prod.mk.inj (Option.some.inj hnext)
    obtain ⟨self', hupdate, hself'⟩ := h.update htarget input hsize
    exact ⟨self', congrArg (Option.map fun self => (self, [])) hupdate, hself'⟩
  | finalize_seek seek out_len =>
    obtain ⟨rfl, rfl⟩ := Prod.mk.inj (Option.some.inj hstep)
    have hout := h.finalize_seek htarget seek out_len
    exact ⟨self, congrArg (Option.map fun out => (self, out)) hout, h⟩
  | reset =>
    obtain ⟨rfl, rfl⟩ := Prod.mk.inj (Option.some.inj hstep)
    exact ⟨_, rfl, h.reset⟩

/-- Whatever a client calls in whatever order, a hasher answers as the hash of the input
since the last reset prescribes, and no call fails. -/
theorem hasher_run {target : Target} (htarget : target.Conforms) {calls : List Call}
    {bytes : List UInt8} {outs : List (List UInt8)}
    (h : (absorber key flags).run [] calls = some (bytes, outs)) :
    ∃ self, (hasherMachine target).run (hasher_init_base key flags) calls = some (self, outs) := by
  obtain ⟨self, hrun, _⟩ := (hasher_refines_absorber htarget).run (represents_init key flags) h
  exact ⟨self, hrun⟩

/-- A message of several chunks in two pieces. -/
def messageCut : List (List UInt8) := [List.replicate 3000 7, List.replicate 800 1]

/-- The same message, cut inside its second block. -/
def messageRecut : List (List UInt8) :=
  [List.replicate 100 7, List.replicate 2900 7 ++ List.replicate 800 1]

theorem length_messageCut : messageCut.flatten.length = 3800 := by
  simp [messageCut, -List.reduceReplicate]

theorem length_messageCut_lt : messageCut.flatten.length < 2 ^ 64 := by
  rw [length_messageCut]
  decide

theorem flatten_messageRecut : messageRecut.flatten = messageCut.flatten := by
  simp [messageRecut, messageCut, ← List.append_assoc, List.replicate_append_replicate,
    -List.reduceReplicate]

/-- The run that a client makes to hash a message in two pieces, and then another one,
of several chunks each. -/
theorem hasher_run_two_messages :
    ∃ self, (hasherMachine vectorTarget).run (hasher_init_base IV 0)
      [.update (List.replicate 3000 7), .update (List.replicate 800 1), .finalize_seek 0 32, .reset,
        .update (List.replicate 2100 4), .finalize_seek 5 70] =
      some (self, [[], [], hashWindow IV 0 messageCut.flatten 0 32, [], [],
        hashWindow IV 0 (List.replicate 2100 4) 5 70]) :=
  hasher_run vectorTarget_conforms
    (show (absorber IV 0).run [] _ = some (List.replicate 2100 4, _) by
      simp [Machine.run, absorber, messageCut, -List.reduceReplicate])

theorem absorber_run_length_lt {calls : List Call} {bytes : List UInt8} {outs : List (List UInt8)}
    (h : (absorber key flags).run [] calls = some (bytes, outs)) : bytes.length < 2 ^ 64 := by
  refine Machine.run_invariant (P := fun bytes => bytes.length < 2 ^ 64) ?_ h (Nat.two_pow_pos 64)
  intro bytes call bytes' out hstep hsize
  cases call with
  | update input =>
    obtain ⟨hnext, heq⟩ := Option.ite_none_right_eq_some.mp hstep
    obtain ⟨rfl, _⟩ := Prod.mk.inj (Option.some.inj heq)
    exact hnext
  | finalize_seek seek out_len =>
    obtain ⟨rfl, _⟩ := Prod.mk.inj (Option.some.inj hstep)
    exact hsize
  | reset =>
    obtain ⟨rfl, _⟩ := Prod.mk.inj (Option.some.inj hstep)
    exact Nat.two_pow_pos 64

/-- The invariants of the state, as a client of the structure would read them. -/
structure WellFormed (hasher : blake3_hasher) (bytes : List UInt8) : Prop where
  chunk_len_le : chunk_state_len hasher.chunk ≤ BLAKE3_CHUNK_LEN
  bytes_length : bytes.length =
    BLAKE3_CHUNK_LEN * hasher.chunk.chunk_counter.toNat + chunk_state_len hasher.chunk
  depth_le : hasher.cv_stack_len ≤ BLAKE3_MAX_DEPTH
  depth_eq : 0 < chunk_state_len hasher.chunk →
    hasher.cv_stack_len = popcnt hasher.chunk.chunk_counter
  depth_ne_one : chunk_state_len hasher.chunk = 0 → hasher.cv_stack_len ≠ 1

theorem Absorbed.toNat_counter {self : blake3_hasher} {front rest : List UInt8} {n : Nat}
    {stack : List (LeafTree Chunk)} (h : Absorbed key flags self front rest n stack)
    (hsize : (front ++ rest).length < 2 ^ 64) :
    n < 2 ^ 54 ∧ self.chunk.chunk_counter.toNat = n := by
  have hn : n < 2 ^ 54 := by
    rw [List.length_append, h.length] at hsize
    unfold BLAKE3_CHUNK_LEN at hsize
    omega
  rw [h.counter_eq, UInt64.toNat_ofNat']
  omega

/-- Where the input ends inside a chunk, the counter has all whole ones. -/
theorem WellFormed.counter_eq {self : blake3_hasher} {bytes : List UInt8} (h : WellFormed self bytes)
    (hpart : bytes.length % BLAKE3_CHUNK_LEN ≠ 0) :
    self.chunk.chunk_counter.toNat = bytes.length / BLAKE3_CHUNK_LEN ∧
      0 < chunk_state_len self.chunk := by
  have hbytes := h.bytes_length
  have hle := h.chunk_len_le
  unfold BLAKE3_CHUNK_LEN at *
  omega

theorem Represents.wellFormed {self : blake3_hasher} {bytes : List UInt8}
    (h : Represents key flags self bytes) (hsize : bytes.length < 2 ^ 64) : WellFormed self bytes := by
  obtain ⟨front, rest, n, stack, rfl, hself⟩ := h
  obtain ⟨hn, hcounter⟩ := hself.toNat_counter hsize
  have hdepth : self.cv_stack_len = stack.length := by
    rw [blake3_hasher.cv_stack_len, hself.stack_eq, List.length_map]
  refine ⟨?_, ?_, ?_, ?_, ?_⟩
  · rw [hself.chunk_state_len]
    exact hself.rest_le
  · rw [hself.chunk_state_len, hcounter, List.length_append, hself.length, Nat.mul_comm]
  · rw [hdepth]
    cases stack with
    | nil => exact Nat.zero_le _
    | cons t below =>
      have hpow := hself.carries.two_pow_length_tail_le
      rw [hself.size] at hpow
      exact (Nat.pow_lt_pow_iff_right Nat.one_lt_two).mp (hpow.trans_lt hn)
  · intro hpos
    rw [hself.chunk_state_len] at hpos
    rw [hdepth, popcnt_eq, hcounter, (hself.merged (List.length_pos_iff.mp hpos)).length_eq,
      hself.size]
  · intro hzero hone
    rw [hself.chunk_state_len] at hzero
    obtain rfl := List.length_eq_zero_iff.mp hzero
    rw [hdepth] at hone
    obtain rfl | htwo := hself.nil_or_two_le
    · exact absurd hone Nat.zero_ne_one
    · exact absurd htwo (by omega)

/-- Every state that a client can reach with fewer than `2 ^ 64` bytes since the last
reset is well formed: the stack never gets past its 54 entries, and no byte is lost or
counted twice. -/
theorem hasher_run_wellFormed {target : Target} (htarget : target.Conforms) {calls : List Call}
    {bytes : List UInt8} {outs : List (List UInt8)}
    (h : (absorber key flags).run [] calls = some (bytes, outs)) :
    ∃ self, (hasherMachine target).run (hasher_init_base key flags) calls = some (self, outs) ∧
      WellFormed self bytes := by
  obtain ⟨self, hrun, hself⟩ := (hasher_refines_absorber htarget).run (represents_init key flags) h
  exact ⟨self, hrun, hself.wellFormed (absorber_run_length_lt h)⟩

/-- Of 3800 bytes, three whole chunks are on the stack. -/
theorem hasher_run_wellFormed_chunks :
    ∃ self, (hasherMachine vectorTarget).run (hasher_init_base IV 0)
        [.update (List.replicate 3000 7), .update (List.replicate 800 1)] = some (self, [[], []]) ∧
      WellFormed self messageCut.flatten ∧ self.cv_stack_len = 2 := by
  obtain ⟨self, hrun, hself⟩ := hasher_run_wellFormed vectorTarget_conforms
    (show (absorber IV 0).run [] [.update (List.replicate 3000 7), .update (List.replicate 800 1)] =
      some (messageCut.flatten, [[], []]) by
        simp [Machine.run, absorber, messageCut, -List.reduceReplicate])
  obtain ⟨hcounter, hpos⟩ := hself.counter_eq (by rw [length_messageCut]; decide)
  refine ⟨self, hrun, hself, ?_⟩
  rw [hself.depth_eq hpos, popcnt_eq, hcounter, length_messageCut]
  rfl

variable (key flags)

/-- How the state cuts up the input: the whole chunks in front are the leaves of full
trees, whose chaining values lie on the stack, and the bytes behind them are in the chunk
state. Once there is one, the trees are the binary expansion of the chunk counter. -/
structure Decomposed (target : Target) (hasher : blake3_hasher) (bytes : List UInt8)
    (trees : List (LeafTree Chunk)) : Prop extends WellFormed hasher bytes where
  cv_stack_eq : hasher.cv_stack = trees.map (treeCv key flags)
  full : ∀ t ∈ trees, Full t
  leaves : stackLeaves trees = leadingChunks 0 hasher.chunk.chunk_counter.toNat bytes
  sizes : 0 < chunk_state_len hasher.chunk →
    trees.map LeafTree.size = hasher.chunk.chunk_counter.toNat.bitIndices.map (2 ^ ·)
  chunk_eq : hasher.chunk = chunk_state_update target
    { chunk_state_init key flags with chunk_counter := hasher.chunk.chunk_counter }
    (bytes.drop (hasher.chunk.chunk_counter.toNat * BLAKE3_CHUNK_LEN))

variable {key flags}

theorem Represents.decomposed {target : Target} (htarget : target.Conforms) {self : blake3_hasher}
    {bytes : List UInt8} (h : Represents key flags self bytes) (hsize : bytes.length < 2 ^ 64) :
    ∃ trees, Decomposed key flags target self bytes trees := by
  have hwell := h.wellFormed hsize
  obtain ⟨front, rest, n, stack, rfl, hself⟩ := h
  obtain ⟨_, hcounter⟩ := hself.toNat_counter hsize
  refine ⟨stack, hwell, hself.stack_eq, hself.carries.full, ?_, ?_, ?_⟩
  · rw [hself.leaves, hcounter, leadingChunks_append_left hself.length]
  · intro hpos
    rw [hself.chunk_state_len] at hpos
    rw [(hself.merged (List.length_pos_iff.mp hpos)).sizes_eq, hself.size, hcounter]
  · rw [hcounter, ← hself.length, List.drop_left, hself.counter_eq]
    exact hself.chunk_eq.trans (chunk_state_update_chunkAt htarget key flags _ rest).symm

/-- In every state that a client can reach with fewer than `2 ^ 64` bytes since the last
reset, the stack holds the chaining values of subtrees over the input, and the chunk
state the rest of it. -/
theorem hasher_run_decomposed {target : Target} (htarget : target.Conforms) {calls : List Call}
    {bytes : List UInt8} {outs : List (List UInt8)}
    (h : (absorber key flags).run [] calls = some (bytes, outs)) :
    ∃ self trees, (hasherMachine target).run (hasher_init_base key flags) calls =
        some (self, outs) ∧ Decomposed key flags target self bytes trees := by
  obtain ⟨self, hrun, hself⟩ := (hasher_refines_absorber htarget).run (represents_init key flags) h
  obtain ⟨trees, htrees⟩ := hself.decomposed htarget (absorber_run_length_lt h)
  exact ⟨self, trees, hrun, htrees⟩

/-- The last of the three chunks is on top of the parent of the first two. -/
theorem hasher_run_decomposed_chunks :
    ∃ self trees, (hasherMachine vectorTarget).run (hasher_init_base IV 0)
        [.update (List.replicate 3000 7), .finalize_seek 0 0, .update (List.replicate 800 1)] =
          some (self, [[], [], []]) ∧
      Decomposed IV 0 vectorTarget self messageCut.flatten trees ∧
      trees.map LeafTree.size = [1, 2] := by
  obtain ⟨self, trees, hrun, hself⟩ := hasher_run_decomposed vectorTarget_conforms
    (show (absorber IV 0).run [] [.update (List.replicate 3000 7), .finalize_seek 0 0,
      .update (List.replicate 800 1)] = some (messageCut.flatten, [[], [], []]) by
        simp [Machine.run, absorber, hashWindow, messageCut, -List.reduceReplicate])
  obtain ⟨hcounter, hpos⟩ := hself.counter_eq (by rw [length_messageCut]; decide)
  refine ⟨self, trees, hrun, hself, ?_⟩
  rw [hself.sizes hpos, hcounter, length_messageCut]
  rfl

/-- Updates with one piece of input after the other. -/
theorem Represents.updates {target : Target} (htarget : target.Conforms) {self : blake3_hasher}
    {bytes : List UInt8} (h : Represents key flags self bytes) (pieces : List (List UInt8))
    (hsize : (bytes ++ pieces.flatten).length < 2 ^ 64) :
    ∃ self', pieces.foldlM (blake3_hasher_update target) self = some self' ∧
      Represents key flags self' (bytes ++ pieces.flatten) := by
  induction pieces generalizing self bytes with
  | nil =>
    rw [List.flatten_nil, List.append_nil]
    exact ⟨self, rfl, h⟩
  | cons piece pieces ih =>
    rw [List.flatten_cons, ← List.append_assoc] at hsize ⊢
    have hfirst : (bytes ++ piece).length < 2 ^ 64 :=
      Nat.lt_of_le_of_lt (by simp only [List.length_append]; omega) hsize
    obtain ⟨next, hnext, hrep⟩ := h.update htarget piece hfirst
    obtain ⟨self', hself', hlast⟩ := ih hrep hsize
    refine ⟨self', ?_, hlast⟩
    rw [List.foldlM_cons, hnext]
    exact hself'

/-- How a client cuts its input into pieces, and how many of them its target hashes at a
time, does not show in any output. -/
theorem update_pieces {target target' : Target} (htarget : target.Conforms)
    (htarget' : target'.Conforms) (key : Vector UInt32 8) (flags : UInt8)
    {pieces pieces' : List (List UInt8)} (hsame : pieces.flatten = pieces'.flatten)
    (hsize : pieces.flatten.length < 2 ^ 64) :
    ∃ self self',
      pieces.foldlM (blake3_hasher_update target) (hasher_init_base key flags) = some self ∧
      pieces'.foldlM (blake3_hasher_update target') (hasher_init_base key flags) = some self' ∧
      ∀ seek out_len, ∃ out, blake3_hasher_finalize_seek target self seek out_len = some out ∧
        blake3_hasher_finalize_seek target' self' seek out_len = some out := by
  obtain ⟨self, hself, hrep⟩ := (represents_init key flags).updates htarget pieces hsize
  obtain ⟨self', hself', hrep'⟩ := (represents_init key flags).updates htarget' pieces'
    (hsame ▸ hsize)
  rw [← hsame] at hrep'
  exact ⟨self, self', hself, hself', fun seek out_len =>
    ⟨_, hrep.finalize_seek htarget seek out_len, hrep'.finalize_seek htarget' seek out_len⟩⟩

theorem update_pieces_chunks :
    ∃ self self',
      messageCut.foldlM (blake3_hasher_update portableTarget) blake3_hasher_init = some self ∧
      messageRecut.foldlM (blake3_hasher_update vectorTarget) blake3_hasher_init = some self' ∧
      ∀ seek out_len, ∃ out,
        blake3_hasher_finalize_seek portableTarget self seek out_len = some out ∧
        blake3_hasher_finalize_seek vectorTarget self' seek out_len = some out :=
  update_pieces portableTarget_conforms vectorTarget_conforms IV 0 flatten_messageRecut.symm
    length_messageCut_lt

end

end ryefs
