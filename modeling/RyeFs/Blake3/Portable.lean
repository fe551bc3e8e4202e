import RyeFs.Blake3.Impl

namespace ryefs

def rotr32 (w c : UInt32) : UInt32 := (w >>> c) ||| (w <<< (32 - c))

def g (state : Vector UInt32 16) (a b c d : Fin 16) (x y : UInt32) : Vector UInt32 16 :=
  let state := state.set a (state[a] + state[b] + x)
  let state := state.set d (rotr32 (state[d] ^^^ state[a]) 16)
  let state := state.set c (state[c] + state[d])
  let state := state.set b (rotr32 (state[b] ^^^ state[c]) 12)
  let state := state.set a (state[a] + state[b] + y)
  let state := state.set d (rotr32 (state[d] ^^^ state[a]) 8)
  let state := state.set c (state[c] + state[d])
  state.set b (rotr32 (state[b] ^^^ state[c]) 7)

def MSG_SCHEDULE : Vector (Vector (Fin 16) 16) 7 :=
  #v[#v[0, 1, 2, 3, 4, 5, 6, 7, 8, 9, 10, 11, 12, 13, 14, 15],
     #v[2, 6, 3, 10, 7, 0, 4, 13, 1, 11, 12, 5, 9, 14, 15, 8],
     #v[3, 4, 10, 12, 13, 2, 7, 14, 6, 5, 9, 0, 11, 15, 8, 1],
     #v[10, 7, 12, 9, 14, 3, 13, 15, 4, 0, 11, 2, 5, 8, 1, 6],
     #v[12, 13, 9, 11, 15, 10, 14, 8, 7, 2, 5, 3, 0, 1, 6, 4],
     #v[9, 14, 11, 5, 8, 12, 15, 1, 13, 3, 0, 10, 2, 6, 4, 7],
     #v[11, 15, 5, 0, 1, 9, 8, 6, 14, 10, 2, 12, 3, 4, 7, 13]]

def round_fn (state : Vector UInt32 16) (msg : Vector UInt32 16) (round : Fin 7) :
    Vector UInt32 16 :=
  let schedule := MSG_SCHEDULE[round]
  -- the columns
  let state := g state 0 4 8 12 msg[schedule[0]] msg[schedule[1]]
  let state := g state 1 5 9 13 msg[schedule[2]] msg[schedule[3]]
  let state := g state 2 6 10 14 msg[schedule[4]] msg[schedule[5]]
  let state := g state 3 7 11 15 msg[schedule[6]] msg[schedule[7]]
  -- the diagonals
  let state := g state 0 5 10 15 msg[schedule[8]] msg[schedule[9]]
  let state := g state 1 6 11 12 msg[schedule[10]] msg[schedule[11]]
  let state := g state 2 7 8 13 msg[schedule[12]] msg[schedule[13]]
  g state 3 4 9 14 msg[schedule[14]] msg[schedule[15]]

/-- The state before the rounds. -/
def initial_state (cv : Vector UInt32 8) (block_len : UInt8) (counter : UInt64) (flags : UInt8) :
    Vector UInt32 16 :=
  #v[cv[0], cv[1], cv[2], cv[3], cv[4], cv[5], cv[6], cv[7], IV[0], IV[1], IV[2], IV[3],
     counter_low counter, counter_high counter, block_len.toUInt32, flags.toUInt32]

def compress_pre (cv : Vector UInt32 8) (block : Vector UInt8 64) (block_len : UInt8)
    (counter : UInt64) (flags : UInt8) : Vector UInt32 16 :=
  let block_words := load_block_words block
  let state := initial_state cv block_len counter flags
  let state := round_fn state block_words 0
  let state := round_fn state block_words 1
  let state := round_fn state block_words 2
  let state := round_fn state block_words 3
  let state := round_fn state block_words 4
  let state := round_fn state block_words 5
  round_fn state block_words 6

def blake3_compress_in_place_portable (cv : Vector UInt32 8) (block : Vector UInt8 64)
    (block_len : UInt8) (counter : UInt64) (flags : UInt8) : Vector UInt32 8 :=
  let state := compress_pre cv block block_len counter flags
  Vector.ofFn fun i => state[i.val] ^^^ state[i.val + 8]

/-- The words of the extended output, before they are stored. -/
def xof_words (cv : Vector UInt32 8) (state : Vector UInt32 16) : Vector UInt32 16 :=
  Vector.ofFn fun i =>
    if h : i.val < 8 then state[i.val] ^^^ state[i.val + 8] else state[i.val] ^^^ cv[i.val - 8]

def blake3_compress_xof_portable (cv : Vector UInt32 8) (block : Vector UInt8 64)
    (block_len : UInt8) (counter : UInt64) (flags : UInt8) : Vector UInt8 64 :=
  let state := compress_pre cv block block_len counter flags
  store_words (xof_words cv state)

/-- The 64 bytes at a pointer. Every caller has that many left. -/
def block_at (input : List UInt8) : Vector UInt8 64 :=
  Vector.ofFn fun i => input.getD i.val 0

/-- The loop over the blocks of one input. -/
def hash_one_loop (blocks : Nat) (input : List UInt8) (cv : Vector UInt32 8) (counter : UInt64)
    (block_flags flags flags_end : UInt8) : Vector UInt32 8 :=
  match blocks with
  | 0 => cv
  | blocks + 1 =>
    let block_flags := if blocks + 1 = 1 then block_flags ||| flags_end else block_flags
    let cv := blake3_compress_in_place_portable cv (block_at input) 64 counter block_flags
    hash_one_loop blocks (input.drop BLAKE3_BLOCK_LEN) cv counter flags flags flags_end

def hash_one_portable (input : List UInt8) (blocks : Nat) (key : Vector UInt32 8)
    (counter : UInt64) (flags flags_start flags_end : UInt8) : Vector UInt8 32 :=
  store_cv_words (hash_one_loop blocks input key counter (flags ||| flags_start) flags flags_end)

def blake3_hash_many_portable (inputs : List (List UInt8)) (blocks : Nat) (key : Vector UInt32 8)
    (counter : UInt64) (increment_counter : Bool) (flags flags_start flags_end : UInt8) :
    List (Vector UInt8 32) :=
  match inputs with
  | [] => []
  | input :: inputs =>
    hash_one_portable input blocks key counter flags flags_start flags_end ::
      blake3_hash_many_portable inputs blocks key
        (if increment_counter then counter + 1 else counter) increment_counter flags flags_start
        flags_end

end ryefs
