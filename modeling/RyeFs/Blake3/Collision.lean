import RyeFs.Blake3.Modes
import RyeFs.Lib.Binding

open binding hashtree windows

namespace ryefs

theorem or_and_distrib (a b c : UInt8) : (a ||| b) &&& c = (a &&& c) ||| (b &&& c) := by
  rw [← UInt8.toBitVec_inj]
  ext i hi
  simp [Bool.and_or_distrib_right]

/-- The flags that say what a compression is for. -/
def nodeFlags : UInt8 := CHUNK_START ||| CHUNK_END ||| PARENT ||| ROOT

/-- The flags of a mode leave these to the nodes of the tree. -/
def IsMode (flags : UInt8) : Prop := flags &&& nodeFlags = 0

instance (flags : UInt8) : Decidable (IsMode flags) := inferInstanceAs (Decidable (_ = _))

theorem IsMode.and {flags : UInt8} (h : IsMode flags) (bits : UInt8) {mask : UInt8}
    (hmask : nodeFlags &&& mask = mask) : (flags ||| bits) &&& mask = bits &&& mask := by
  have hzero : flags &&& mask = 0 := by
    rw [← hmask, ← UInt8.and_assoc, h, UInt8.zero_and]
  rw [or_and_distrib, hzero, UInt8.zero_or]

theorem IsMode.and_not {flags : UInt8} (h : IsMode flags) {bits : UInt8}
    (hbits : bits &&& ~~~nodeFlags = 0) : (flags ||| bits) &&& ~~~nodeFlags = flags := by
  have hsplit : flags &&& nodeFlags ||| flags &&& ~~~nodeFlags = flags := by
    rw [← UInt8.toBitVec_inj]
    ext i hi
    by_cases hbit : nodeFlags.toBitVec[i] = true
    · simp [hbit]
    · simp [hbit]
  rw [h, UInt8.zero_or] at hsplit
  rw [or_and_distrib, hbits, hsplit, UInt8.or_zero]

/-- The eight words from word `start` on of a block. -/
def halfBlock (block : Vector UInt8 64) (start : Fin 9) : Vector UInt32 8 :=
  Vector.ofFn fun i => (load_block_words block)[start.val + i.val]

/-- A compression as a function of its arguments. Which chaining values it uses, its
flags tell. -/
def compression : Compression output_t (Vector UInt32 8) where
  value c := blake3_compress_in_place_portable c.input_cv c.block c.block_len c.counter c.flags
  inputs c :=
    if c.flags &&& PARENT ≠ 0 then [halfBlock c.block 0, halfBlock c.block 8]
    else if c.flags &&& CHUNK_START ≠ 0 then []
    else [c.input_cv]

theorem chainingValue_eq (c : output_t) :
    chainingValue c = store_cv_words (compression.value c) := rfl

theorem load_block_words_append (left right : Vector UInt32 8) :
    load_block_words (store_cv_words left ++ store_cv_words right) = left ++ right := by
  have hstore : store_words (n := 16) (left ++ right) =
      (store_cv_words left ++ store_cv_words right : Vector UInt8 64) := by
    apply Vector.ext
    intro i hi
    rw [getElem_store_words, Vector.getElem_append, Vector.getElem_append]
    by_cases hleft : i < 32
    · rw [dif_pos (show i / 4 < 8 by omega), dif_pos hleft]
      exact (getElem_store_words left i hleft).symm
    · have hdiv : i / 4 - 8 = (i - 32) / 4 := by omega
      have hmod : i % 4 = (i - 32) % 4 := by omega
      rw [dif_neg (show ¬ i / 4 < 8 by omega), dif_neg hleft]
      change _ = (store_words right)[i - 32]
      rw [getElem_store_words]
      simp only [hdiv, hmod]
  rw [← hstore]
  exact load_words_store_words (n := 16) (left ++ right)

/-- The block of a parent holds the chaining values of its two children. -/
theorem halfBlock_append (left right : Vector UInt32 8) :
    halfBlock (store_cv_words left ++ store_cv_words right) 0 = left ∧
      halfBlock (store_cv_words left ++ store_cv_words right) 8 = right := by
  unfold halfBlock
  rw [load_block_words_append]
  constructor
  · apply Vector.ext
    intro i hi
    have hplace : (0 : Fin 9).val + i = i := Nat.zero_add i
    rw [Vector.getElem_ofFn]
    simp only [hplace]
    exact Vector.getElem_append_left hi
  · apply Vector.ext
    intro i hi
    rw [Vector.getElem_ofFn]
    change (left ++ right)[8 + i] = right[i]
    rw [Vector.getElem_append_right (by omega) (Nat.le_add_right 8 i)]
    simp only [Nat.add_sub_cancel_left]

section

variable (key : Vector UInt32 8) (flags : UInt8)

theorem inputs_parent_output (hmode : IsMode flags) (l r : output_t) :
    compression.inputs
        (parent_output (chainingValue l ++ chainingValue r) key flags) =
      [compression.value l, compression.value r] := by
  have hparent : (flags ||| PARENT) &&& PARENT ≠ 0 := by
    rw [hmode.and PARENT (by decide)]
    decide
  have hhalves := halfBlock_append (compression.value l) (compression.value r)
  unfold compression parent_output make_output
  dsimp only
  rw [if_pos hparent, chainingValue_eq, chainingValue_eq, hhalves.1, hhalves.2]
  rfl

/-- The call is put behind those of the blocks in front of it. -/
def extend (previous : Option (Evaluation output_t)) (c : output_t) : Evaluation output_t :=
  match previous with
  | none => .start c
  | some e => .next c e

/-- The compressions of a chunk, block by block, as the specification absorbs them. -/
def absorbEvaluation (previous : Option (Evaluation output_t)) (cv : Vector UInt32 8)
    (counter : UInt64) (start : UInt8) (bytes : List UInt8) : Evaluation output_t :=
  if bytes.length > BLAKE3_BLOCK_LEN then
    absorbEvaluation
      (some (extend previous (make_output cv (block_at bytes) 64 counter (flags ||| start))))
      (blake3_compress_in_place_portable cv (block_at bytes) 64 counter (flags ||| start)) counter 0
      (bytes.drop BLAKE3_BLOCK_LEN)
  else
    extend previous (make_output cv (block_at bytes) (UInt8.ofNat bytes.length) counter
      (flags ||| start ||| CHUNK_END))
termination_by bytes.length
decreasing_by
  unfold BLAKE3_BLOCK_LEN at *
  rw [List.length_drop]
  omega

def treeEvaluation : LeafTree Chunk → Evaluation output_t
  | .leaf chunk =>
    absorbEvaluation flags none key (UInt64.ofNat chunk.index) CHUNK_START chunk.bytes
  | .node l r => .join (treeOutput key flags (.node l r)) (treeEvaluation l) (treeEvaluation r)

/-- The root is compressed as such, for the first block of output. -/
def rootCall (root : output_t) : output_t := { root with counter := 0, flags := root.flags ||| ROOT }

/-- All compressions that the first block of the hash of an input takes. -/
def hashEvaluation (input : List UInt8) : Evaluation output_t :=
  (treeEvaluation key flags (hashTree 0 input)).setRoot
    (rootCall (treeOutput key flags (hashTree 0 input)))

@[simp] theorem root_extend (previous : Option (Evaluation output_t)) (c : output_t) :
    (extend previous c).root = c := by
  cases previous with
  | none => rfl
  | some e => rfl

theorem root_absorbEvaluation (previous : Option (Evaluation output_t)) (cv : Vector UInt32 8)
    (counter : UInt64) (start : UInt8) (bytes : List UInt8) :
    (absorbEvaluation flags previous cv counter start bytes).root =
      absorb cv counter flags start bytes := by
  induction previous, cv, start, bytes using absorbEvaluation.induct flags counter with
  | case1 previous cv start bytes hmore ih =>
    rw [absorbEvaluation, if_pos hmore, absorb, if_pos hmore, ih]
  | case2 previous cv start bytes hless =>
    rw [absorbEvaluation, if_neg hless, absorb, if_neg hless, root_extend]

theorem root_treeEvaluation (t : LeafTree Chunk) :
    (treeEvaluation key flags t).root = treeOutput key flags t := by
  cases t with
  | leaf chunk => exact root_absorbEvaluation flags none key _ CHUNK_START chunk.bytes
  | node l r => rfl

/-- What a chunk continues with: nothing and the start flag, or the value of the blocks
in front and no flag. -/
def Continues (previous : Option (Evaluation output_t)) (cv : Vector UInt32 8) (start : UInt8) : Prop :=
  match previous with
  | none => start = CHUNK_START
  | some e => start = 0 ∧ cv = compression.value e.root ∧ e.Valid compression

theorem valid_extend {flags : UInt8} (hmode : IsMode flags) {previous : Option (Evaluation output_t)}
    (start : UInt8) {c : output_t} (hcontinues : Continues previous c.input_cv start)
    (hflags : c.flags = flags ||| start ∨ c.flags = flags ||| start ||| CHUNK_END) :
    (extend previous c).Valid compression := by
  -- the end flag plays no part in what a call uses
  have hbits : c.flags &&& PARENT = start &&& PARENT ∧
      c.flags &&& CHUNK_START = start &&& CHUNK_START := by
    obtain hstart | hlast := hflags
    · rw [hstart, hmode.and start (by decide), hmode.and start (by decide)]
      exact ⟨rfl, rfl⟩
    · rw [hlast, or_and_distrib _ CHUNK_END, or_and_distrib _ CHUNK_END,
        hmode.and start (by decide), hmode.and start (by decide)]
      exact ⟨UInt8.or_zero, UInt8.or_zero⟩
  cases previous with
  | none =>
    obtain rfl : start = CHUNK_START := hcontinues
    change (if c.flags &&& PARENT ≠ 0 then _ else _) = _
    rw [hbits.1, hbits.2]
    rfl
  | some e =>
    obtain ⟨rfl, hcv, he⟩ := hcontinues
    refine ⟨?_, he⟩
    change (if c.flags &&& PARENT ≠ 0 then _ else _) = _
    rw [hbits.1, hbits.2, ← hcv]
    rfl

theorem valid_absorbEvaluation {flags : UInt8} (hmode : IsMode flags)
    (previous : Option (Evaluation output_t)) (cv : Vector UInt32 8) (counter : UInt64)
    (start : UInt8) (bytes : List UInt8) (hcontinues : Continues previous cv start) :
    (absorbEvaluation flags previous cv counter start bytes).Valid compression := by
  induction previous, cv, start, bytes using absorbEvaluation.induct flags counter with
  | case1 previous cv start bytes hmore ih =>
    rw [absorbEvaluation, if_pos hmore]
    apply ih
    refine ⟨rfl, ?_, valid_extend hmode start hcontinues (.inl rfl)⟩
    rw [root_extend]
    rfl
  | case2 previous cv start bytes hless =>
    rw [absorbEvaluation, if_neg hless]
    exact valid_extend hmode start hcontinues (.inr rfl)

theorem valid_treeEvaluation {flags : UInt8} (hmode : IsMode flags) (t : LeafTree Chunk) :
    (treeEvaluation key flags t).Valid compression := by
  induction t with
  | leaf chunk => exact valid_absorbEvaluation hmode none key _ CHUNK_START chunk.bytes rfl
  | node l r ihl ihr =>
    refine ⟨?_, ihl, ihr⟩
    rw [root_treeEvaluation, root_treeEvaluation]
    exact inputs_parent_output key flags hmode (treeOutput key flags l) (treeOutput key flags r)

/-- The root flag and the output counter do not change what the root uses. -/
theorem inputs_rootCall (root : output_t) :
    compression.inputs (rootCall root) = compression.inputs root := by
  have hbits (mask : UInt8) (hmask : ROOT &&& mask = 0) :
      (root.flags ||| ROOT) &&& mask = root.flags &&& mask := by
    rw [or_and_distrib, hmask, UInt8.or_zero]
  unfold compression rootCall
  dsimp only
  rw [hbits PARENT (by decide), hbits CHUNK_START (by decide)]

theorem valid_hashEvaluation {flags : UInt8} (hmode : IsMode flags) (input : List UInt8) :
    (hashEvaluation key flags input).Valid compression := by
  apply (valid_treeEvaluation key hmode _).setRoot
  rw [root_treeEvaluation, inputs_rootCall]

/-- The bytes that the blocks of an evaluation hold, those of parents aside. -/
def message : Evaluation output_t → List UInt8
  | .start c => c.block.toList.take c.block_len.toNat
  | .next c previous => message previous ++ c.block.toList.take c.block_len.toNat
  | .join _ left right => message left ++ message right

/-- The first call on the first chunk shows the key and the mode. -/
def Starts (key : Vector UInt32 8) (flags : UInt8) : Evaluation output_t → Prop
  | .start c => c.input_cv = key ∧ c.flags &&& ~~~nodeFlags = flags
  | .next _ previous => Starts key flags previous
  | .join _ left _ => Starts key flags left

theorem take_block_at {bytes : List UInt8} {n : Nat} (hn : n ≤ 64) (hlength : n ≤ bytes.length) :
    (block_at bytes).toList.take n = bytes.take n := by
  apply List.ext_getElem
  · simp only [List.length_take, Vector.length_toList]
    omega
  · intro i hi _
    have hlt : i < n := by
      rw [List.length_take, Vector.length_toList] at hi
      omega
    rw [List.getElem_take, List.getElem_take, Vector.getElem_toList, getElem_block_at,
      List.getD_eq_getElem _ _ (by omega)]

theorem message_extend (previous : Option (Evaluation output_t)) (c : output_t) :
    message (extend previous c) =
      previous.elim [] message ++ c.block.toList.take c.block_len.toNat := by
  cases previous with
  | none => rfl
  | some e => rfl

theorem message_absorbEvaluation (flags : UInt8) (previous : Option (Evaluation output_t))
    (cv : Vector UInt32 8) (counter : UInt64) (start : UInt8) (bytes : List UInt8) :
    message (absorbEvaluation flags previous cv counter start bytes) =
      previous.elim [] message ++ bytes := by
  induction previous, cv, start, bytes using absorbEvaluation.induct flags counter with
  | case1 previous cv start bytes hmore ih =>
    have hblock : (block_at bytes).toList.take 64 = bytes.take 64 := take_block_at le_rfl hmore.le
    rw [absorbEvaluation, if_pos hmore, ih, Option.elim_some, message_extend, List.append_assoc]
    change _ ++ ((block_at bytes).toList.take 64 ++ bytes.drop 64) = _
    rw [hblock, List.take_append_drop]
  | case2 previous cv start bytes hless =>
    have hle : bytes.length ≤ 64 := Nat.not_lt.mp hless
    have hlength : (UInt8.ofNat bytes.length).toNat = bytes.length := by
      rw [UInt8.toNat_ofNat']
      omega
    rw [absorbEvaluation, if_neg hless, message_extend]
    change _ ++ (block_at bytes).toList.take (UInt8.ofNat bytes.length).toNat = _
    rw [hlength, take_block_at hle le_rfl, List.take_length]

/-- An evaluation holds the whole input. -/
theorem message_treeEvaluation (index : Nat) (input : List UInt8) :
    message (treeEvaluation key flags (hashTree index input)) = input := by
  induction index, input using hashTree.induct with
  | case1 index input hlarge ihl ihr =>
    rw [hashTree, if_pos hlarge, treeEvaluation, message, ihl, ihr, List.take_append_drop]
  | case2 index input hsmall =>
    rw [hashTree, if_neg hsmall, treeEvaluation, message_absorbEvaluation]
    rfl

theorem message_setRoot (e : Evaluation output_t) {c : output_t} (hblock : c.block = e.root.block)
    (hlen : c.block_len = e.root.block_len) : message (e.setRoot c) = message e := by
  cases e with
  | start _ => simp only [Evaluation.setRoot, message, hblock, hlen, Evaluation.root]
  | next _ _ => simp only [Evaluation.setRoot, message, hblock, hlen, Evaluation.root]
  | join _ _ _ => rfl

theorem message_hashEvaluation (input : List UInt8) :
    message (hashEvaluation key flags input) = input := by
  rw [hashEvaluation, message_setRoot, message_treeEvaluation]
  · rw [root_treeEvaluation]
    rfl
  · rw [root_treeEvaluation]
    rfl

theorem starts_absorbEvaluation {key : Vector UInt32 8} {flags : UInt8} (hmode : IsMode flags)
    (previous : Option (Evaluation output_t)) (cv : Vector UInt32 8) (counter : UInt64)
    (start : UInt8) (bytes : List UInt8)
    (hstart : match previous with
      | none => cv = key ∧ start = CHUNK_START
      | some e => Starts key flags e) :
    Starts key flags (absorbEvaluation flags previous cv counter start bytes) := by
  have hextend {previous : Option (Evaluation output_t)} {cv : Vector UInt32 8} {start : UInt8}
      (hstart : match previous with
        | none => cv = key ∧ start = CHUNK_START
        | some e => Starts key flags e) {c : output_t} (hcv : c.input_cv = cv)
      (hflags : c.flags = flags ||| start ∨ c.flags = flags ||| start ||| CHUNK_END) :
      Starts key flags (extend previous c) := by
    cases previous with
    | none =>
      obtain ⟨rfl, rfl⟩ := hstart
      refine ⟨hcv, ?_⟩
      obtain hstart | hlast := hflags
      · rw [hstart, hmode.and_not (by decide)]
      · rw [hlast, UInt8.or_assoc, hmode.and_not (by decide)]
    | some e => exact hstart
  induction previous, cv, start, bytes using absorbEvaluation.induct flags counter with
  | case1 previous cv start bytes hmore ih =>
    rw [absorbEvaluation, if_pos hmore]
    exact ih (hextend hstart rfl (.inl rfl))
  | case2 previous cv start bytes hless =>
    rw [absorbEvaluation, if_neg hless]
    exact hextend hstart rfl (.inr rfl)

theorem starts_hashEvaluation {key : Vector UInt32 8} {flags : UInt8} (hmode : IsMode flags)
    (input : List UInt8) : Starts key flags (hashEvaluation key flags input) := by
  have htree (t : LeafTree Chunk) : Starts key flags (treeEvaluation key flags t) := by
    induction t with
    | leaf chunk =>
      exact starts_absorbEvaluation hmode none key _ CHUNK_START chunk.bytes ⟨rfl, rfl⟩
    | node l r ihl _ => exact ihl
  have hroot := root_treeEvaluation key flags (hashTree 0 input)
  have hstarts := htree (hashTree 0 input)
  unfold hashEvaluation
  rw [← hroot]
  generalize treeEvaluation key flags (hashTree 0 input) = e at *
  cases e with
  | start c =>
    obtain ⟨hkey, hflags⟩ := hstarts
    refine ⟨hkey, ?_⟩
    change (c.flags ||| ROOT) &&& ~~~nodeFlags = flags
    rw [or_and_distrib, hflags]
    exact UInt8.or_zero
  | next c previous => exact hstarts
  | join c left right => exact hstarts

/-- The first 32 bytes of output are the value of the root call. -/
theorem hashWindow_eq_root (input : List UInt8) :
    hashWindow key flags input 0 32 =
      (store_cv_words (compression.value (hashEvaluation key flags input).root)).toList := by
  unfold hashWindow hashEvaluation
  rw [Evaluation.root_setRoot]
  generalize treeOutput key flags (hashTree 0 input) = root
  apply List.ext_getElem
  · simp
  · intro i hi _
    rw [length_window] at hi
    have hbyte := getElem_compress_xof root.input_cv root.block root.block_len 0
      (root.flags ||| ROOT) i hi
    have hblock : UInt64.ofNat ((0 + i) / 64) = 0 := by
      rw [Nat.zero_add, Nat.div_eq_of_lt (by omega)]
      rfl
    have hplace : (0 + i) % 64 = i := by omega
    rw [Vector.getElem_toList]
    refine Eq.trans ?_ hbyte
    simp only [window, rootByte, List.getElem_map, List.getElem_range, hblock, hplace]

/-- Two inputs with the same first 32 bytes of output are the same, under the same key
and in the same mode, or two of the compressions that hashing them takes collide. -/
theorem eq_or_collision_of_hashWindow {key key' : Vector UInt32 8} {flags flags' : UInt8}
    (hmode : IsMode flags) (hmode' : IsMode flags') {input input' : List UInt8}
    (h : hashWindow key flags input 0 32 = hashWindow key' flags' input' 0 32) :
    (key = key' ∧ flags = flags' ∧ input = input') ∨
      Collision compression (hashEvaluation key flags input).calls
        (hashEvaluation key' flags' input').calls := by
  rw [hashWindow_eq_root, hashWindow_eq_root] at h
  have hvalue := store_words_injective (Vector.toList_inj.mp h)
  by_cases hroot : (hashEvaluation key flags input).root = (hashEvaluation key' flags' input').root
  · obtain heq | hcollision := (valid_hashEvaluation key hmode input).eq_or_collision
      (valid_hashEvaluation key' hmode' input') hroot
    · have hstarts : Starts key flags _ := starts_hashEvaluation hmode input
      have hstarts' : Starts key' flags' _ := starts_hashEvaluation hmode' input'
      have hinput := congrArg message heq
      rw [message_hashEvaluation, message_hashEvaluation] at hinput
      rw [← heq] at hstarts'
      have hfirst {e : Evaluation output_t} (hs : Starts key flags e) (hs' : Starts key' flags' e) :
          key = key' ∧ flags = flags' := by
        induction e with
        | start c => exact ⟨hs.1.symm.trans hs'.1, hs.2.symm.trans hs'.2⟩
        | next c previous ih => exact ih hs hs'
        | join c left right ih _ => exact ih hs hs'
      obtain ⟨hkey, hflags⟩ := hfirst hstarts hstarts'
      exact .inl ⟨hkey, hflags, hinput⟩
    · exact .inr hcollision
  · exact .inr ⟨_, Evaluation.root_mem_calls _, _, Evaluation.root_mem_calls _, hroot, hvalue⟩

/-- The digest that the code returns commits to the input, the key and the mode: where
two hashers return the same, whatever their updates, their inputs are the same, or the
compression function has a collision among the calls that hashing these inputs takes. -/
theorem finalize_eq_or_collision {target target' : Target} (htarget : target.Conforms)
    (htarget' : target'.Conforms) {key key' : Vector UInt32 8} {flags flags' : UInt8}
    (hmode : IsMode flags) (hmode' : IsMode flags') {pieces pieces' : List (List UInt8)}
    (hsize : pieces.flatten.length < 2 ^ 64) (hsize' : pieces'.flatten.length < 2 ^ 64) :
    ∃ self self',
      pieces.foldlM (blake3_hasher_update target) (hasher_init_base key flags) = some self ∧
      pieces'.foldlM (blake3_hasher_update target') (hasher_init_base key' flags') = some self' ∧
      (blake3_hasher_finalize target self (UInt64.ofNat BLAKE3_OUT_LEN) =
          blake3_hasher_finalize target' self' (UInt64.ofNat BLAKE3_OUT_LEN) →
        (key = key' ∧ flags = flags' ∧ pieces.flatten = pieces'.flatten) ∨
          Collision compression (hashEvaluation key flags pieces.flatten).calls
            (hashEvaluation key' flags' pieces'.flatten).calls) := by
  obtain ⟨self, hself, hrep⟩ := (represents_init key flags).updates htarget pieces hsize
  obtain ⟨self', hself', hrep'⟩ := (represents_init key' flags').updates htarget' pieces' hsize'
  refine ⟨self, self', hself, hself', fun h => ?_⟩
  have hdigest := hrep.finalize_seek htarget 0 (UInt64.ofNat BLAKE3_OUT_LEN)
  have hdigest' := hrep'.finalize_seek htarget' 0 (UInt64.ofNat BLAKE3_OUT_LEN)
  exact eq_or_collision_of_hashWindow hmode hmode'
    (Option.some.inj (hdigest.symm.trans (h.trans hdigest')))

end

/-- One message under one key, cut in two ways for two targets: the digests are the
same. -/
theorem finalize_eq_or_collision_two_cuts :
    ∃ self self',
      messageCut.foldlM (blake3_hasher_update portableTarget)
        (blake3_hasher_init_keyed (Vector.replicate 32 9)) = some self ∧
      messageRecut.foldlM (blake3_hasher_update vectorTarget)
        (blake3_hasher_init_keyed (Vector.replicate 32 9)) = some self' ∧
      blake3_hasher_finalize portableTarget self (UInt64.ofNat BLAKE3_OUT_LEN) =
        blake3_hasher_finalize vectorTarget self' (UInt64.ofNat BLAKE3_OUT_LEN) ∧
      ((load_key_words (Vector.replicate 32 9) = load_key_words (Vector.replicate 32 9) ∧
          KEYED_HASH = KEYED_HASH ∧ messageCut.flatten = messageRecut.flatten) ∨
        Collision compression
          (hashEvaluation (load_key_words (Vector.replicate 32 9)) KEYED_HASH messageCut.flatten).calls
          (hashEvaluation (load_key_words (Vector.replicate 32 9)) KEYED_HASH
            messageRecut.flatten).calls) := by
  have hmode : IsMode KEYED_HASH := by decide
  have hsize := length_messageCut_lt
  have hsize' : messageRecut.flatten.length < 2 ^ 64 := by
    rw [flatten_messageRecut]
    exact hsize
  obtain ⟨self, self', hself, hself', heq_or⟩ := finalize_eq_or_collision portableTarget_conforms
    vectorTarget_conforms hmode hmode hsize hsize'
  have hinit := represents_init (load_key_words (Vector.replicate 32 9)) KEYED_HASH
  obtain ⟨_, hupdates, hrep⟩ := hinit.updates portableTarget_conforms messageCut hsize
  obtain rfl := Option.some.inj (hself.symm.trans hupdates)
  obtain ⟨_, hupdates', hrep'⟩ := hinit.updates vectorTarget_conforms messageRecut hsize'
  obtain rfl := Option.some.inj (hself'.symm.trans hupdates')
  rw [flatten_messageRecut] at hrep'
  have hdigest : blake3_hasher_finalize portableTarget self (UInt64.ofNat BLAKE3_OUT_LEN) =
      blake3_hasher_finalize vectorTarget self' (UInt64.ofNat BLAKE3_OUT_LEN) :=
    (hrep.finalize_seek portableTarget_conforms 0 _).trans
      (hrep'.finalize_seek vectorTarget_conforms 0 _).symm
  exact ⟨self, self', hself, hself', hdigest, heq_or hdigest⟩

end ryefs
