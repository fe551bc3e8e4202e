import RyeFs.Lib.Bits

open bits

namespace ryefs

def BLAKE3_KEY_LEN : Nat := 32
def BLAKE3_OUT_LEN : Nat := 32
def BLAKE3_BLOCK_LEN : Nat := 64
def BLAKE3_CHUNK_LEN : Nat := 1024
def BLAKE3_MAX_DEPTH : Nat := 54

def CHUNK_START : UInt8 := (1 : UInt8) <<< 0
def CHUNK_END : UInt8 := (1 : UInt8) <<< 1
def PARENT : UInt8 := (1 : UInt8) <<< 2
def ROOT : UInt8 := (1 : UInt8) <<< 3
def KEYED_HASH : UInt8 := (1 : UInt8) <<< 4
def DERIVE_KEY_CONTEXT : UInt8 := (1 : UInt8) <<< 5
def DERIVE_KEY_MATERIAL : UInt8 := (1 : UInt8) <<< 6

def IV : Vector UInt32 8 :=
  #v[0x6A09E667, 0xBB67AE85, 0x3C6EF372, 0xA54FF53A,
     0x510E527F, 0x9B05688C, 0x1F83D9AB, 0x5BE0CD19]

/-- One of the tests of the binary search: if a bit of the mask is set, the word
is shifted down by `shift`. -/
def highest_one_step (mask shift : UInt64) (s : UInt64 × Nat) : UInt64 × Nat :=
  if s.1 &&& mask ≠ 0 then (s.1 >>> shift, s.2 + shift.toNat) else s

/-- Index of the highest set bit, for compilers without a builtin for it. The last
test of the source leaves the word as it is, which nothing reads any more. -/
def highest_one (x : UInt64) : Nat :=
  let s := highest_one_step 0xffffffff00000000 32 (x, 0)
  let s := highest_one_step 0x00000000ffff0000 16 s
  let s := highest_one_step 0x000000000000ff00 8 s
  let s := highest_one_step 0x00000000000000f0 4 s
  let s := highest_one_step 0x000000000000000c 2 s
  (highest_one_step 0x0000000000000002 1 s).2

theorem and_sub_one_decreases {x : UInt64} (hx : x ≠ 0) : (x &&& (x - 1)).toNat < x.toNat := by
  have hne : x.toNat ≠ 0 := by
    rw [ne_eq, ← UInt64.toNat_inj] at hx
    exact hx
  have hsub : (x - 1).toNat = x.toNat - 1 :=
    UInt64.toNat_sub_of_le x 1 (UInt64.le_iff_toNat_le.mpr (Nat.one_le_iff_ne_zero.mpr hne))
  rw [UInt64.toNat_and, hsub]
  exact and_sub_one_lt hne

/-- The loop of the population count, for compilers without a builtin for it. -/
def popcnt_loop (x : UInt64) (count : Nat) : Nat :=
  if x ≠ 0 then popcnt_loop (x &&& (x - 1)) (count + 1) else count
termination_by x.toNat
decreasing_by exact and_sub_one_decreases (by assumption)

def popcnt (x : UInt64) : Nat := popcnt_loop x 0

def round_down_to_power_of_2 (x : UInt64) : UInt64 :=
  1 <<< UInt64.ofNat (highest_one (x ||| 1))

def counter_low (counter : UInt64) : UInt32 := counter.toUInt32

def counter_high (counter : UInt64) : UInt32 := (counter >>> 32).toUInt32

def load32 (src : Vector UInt8 4) : UInt32 :=
  (src[0].toUInt32 <<< 0) ||| (src[1].toUInt32 <<< 8) |||
    (src[2].toUInt32 <<< 16) ||| (src[3].toUInt32 <<< 24)

def store32 (w : UInt32) : Vector UInt8 4 :=
  #v[(w >>> 0).toUInt8, (w >>> 8).toUInt8, (w >>> 16).toUInt8, (w >>> 24).toUInt8]

/-- The four bytes from `4 * i` on. -/
def word_at {n : Nat} (src : Vector UInt8 (n * 4)) (i : Fin n) : Vector UInt8 4 :=
  Vector.ofFn fun j => src[i.val * 4 + j.val]

def load_words {n : Nat} (src : Vector UInt8 (n * 4)) : Vector UInt32 n :=
  Vector.ofFn fun i => load32 (word_at src i)

def store_words {n : Nat} (words : Vector UInt32 n) : Vector UInt8 (n * 4) :=
  (words.map store32).flatten

def load_key_words (key : Vector UInt8 32) : Vector UInt32 8 := load_words (n := 8) key

def load_block_words (block : Vector UInt8 64) : Vector UInt32 16 := load_words (n := 16) block

def store_cv_words (cv_words : Vector UInt32 8) : Vector UInt8 32 := store_words cv_words

theorem toNat_shiftLeft_byte (b : UInt8) (shift : UInt32) (hshift : shift.toNat ≤ 24) :
    (b.toUInt32 <<< shift).toNat = b.toNat <<< shift.toNat := by
  have hb := b.toNat_lt
  have hpow : 2 ^ shift.toNat ≤ 2 ^ 24 := Nat.pow_le_pow_right Nat.two_pos hshift
  have hprod : b.toNat * 2 ^ shift.toNat < 2 ^ 32 := by
    calc b.toNat * 2 ^ shift.toNat ≤ 255 * 2 ^ 24 := Nat.mul_le_mul (by omega) hpow
      _ < 2 ^ 32 := by decide
  rw [UInt32.toNat_shiftLeft, Nat.mod_eq_of_lt (show shift.toNat < 32 by omega),
    UInt8.toNat_toUInt32, Nat.shiftLeft_eq, Nat.mod_eq_of_lt hprod]

theorem load32_toNat (src : Vector UInt8 4) :
    (load32 src).toNat =
      src[0].toNat + src[1].toNat * 2 ^ 8 + src[2].toNat * 2 ^ 16 + src[3].toNat * 2 ^ 24 := by
  have h0 := src[0].toNat_lt
  have h1 := src[1].toNat_lt
  have h2 := src[2].toNat_lt
  have h16 : src[0].toNat + src[1].toNat * 2 ^ 8 < 2 ^ 16 := by omega
  have h24 : src[0].toNat + src[1].toNat * 2 ^ 8 + src[2].toNat * 2 ^ 16 < 2 ^ 24 := by omega
  unfold load32
  rw [UInt32.toNat_or, UInt32.toNat_or, UInt32.toNat_or, toNat_shiftLeft_byte _ 0 (by decide),
    toNat_shiftLeft_byte _ 8 (by decide), toNat_shiftLeft_byte _ 16 (by decide),
    toNat_shiftLeft_byte _ 24 (by decide)]
  change ((src[0].toNat <<< 0 ||| src[1].toNat <<< 8) ||| src[2].toNat <<< 16) |||
    src[3].toNat <<< 24 = _
  rw [Nat.shiftLeft_zero, or_shiftLeft_eq_add h0, or_shiftLeft_eq_add h16, or_shiftLeft_eq_add h24]

/-- A stage of the search for the highest bit of `x`: what is left fits in `w`
bits, and its highest bit is `s.2` places below that of `x`. -/
structure Searched (x : UInt64) (w : Nat) (s : UInt64 × Nat) : Prop where
  lt : s.1.toNat < 2 ^ w
  ne_zero : s.1.toNat ≠ 0
  log2 : s.1.toNat.log2 + s.2 = x.toNat.log2

theorem Searched.step {x : UInt64} {w : Nat} {s : UInt64 × Nat} (h : Searched x (2 * w) s)
    (mask shift : UInt64) (hmask : mask.toNat = (2 ^ w - 1) <<< w) (hshift : shift.toNat = w)
    (hw : w < 64) : Searched x w (highest_one_step mask shift s) := by
  have htest : s.1 &&& mask ≠ 0 ↔ 2 ^ w ≤ s.1.toNat := by
    rw [← and_upper_ne_zero_iff h.lt, ← hmask, ← UInt64.toNat_and, ne_eq, ← UInt64.toNat_inj]
    rfl
  have hshifted : (s.1 >>> shift).toNat = s.1.toNat >>> w := by
    rw [UInt64.toNat_shiftRight, hshift, Nat.mod_eq_of_lt hw]
  unfold highest_one_step
  by_cases hle : 2 ^ w ≤ s.1.toNat
  · rw [if_pos (htest.mpr hle)]
    refine ⟨?_, ?_, ?_⟩
    · rw [hshifted, Nat.shiftRight_eq_div_pow]
      apply Nat.div_lt_of_lt_mul
      rw [← Nat.pow_add, ← Nat.two_mul]
      exact h.lt
    · rw [hshifted, Nat.shiftRight_eq_div_pow]
      exact (Nat.div_pos hle (Nat.two_pow_pos w)).ne'
    · rw [hshifted, hshift, ← h.log2, ← log2_shiftRight hle]
      omega
  · rw [if_neg (fun hset => hle (htest.mp hset))]
    exact ⟨Nat.lt_of_not_le hle, h.ne_zero, h.log2⟩

/-- The binary search finds the index of the highest bit, as the builtin does. -/
theorem highest_one_eq_log2 {x : UInt64} (hx : x ≠ 0) : highest_one x = x.toNat.log2 := by
  have hstart : Searched x (2 * 32) (x, 0) := by
    rw [ne_eq, ← UInt64.toNat_inj] at hx
    exact ⟨x.toNat_lt, hx, rfl⟩
  have h32 := hstart.step 0xffffffff00000000 32 rfl rfl (by omega)
  have h16 := Searched.step (w := 16) h32 0x00000000ffff0000 16 rfl rfl (by omega)
  have h8 := Searched.step (w := 8) h16 0x000000000000ff00 8 rfl rfl (by omega)
  have h4 := Searched.step (w := 4) h8 0x00000000000000f0 4 rfl rfl (by omega)
  have h2 := Searched.step (w := 2) h4 0x000000000000000c 2 rfl rfl (by omega)
  have h1 := Searched.step (w := 1) h2 0x0000000000000002 1 rfl rfl (by omega)
  -- one bit is left, the highest one
  have hlast := Nat.le_antisymm (Nat.le_of_lt_succ h1.lt) (Nat.pos_of_ne_zero h1.ne_zero)
  have hlog := h1.log2
  rw [hlast, show Nat.log2 1 = 0 from rfl, Nat.zero_add] at hlog
  exact hlog

theorem popcnt_loop_eq (x : UInt64) (count : Nat) : popcnt_loop x count = popcount x.toNat + count := by
  induction x, count using popcnt_loop.induct with
  | case1 x count hx ih =>
    have hne : x.toNat ≠ 0 := by
      rw [ne_eq, ← UInt64.toNat_inj] at hx
      exact hx
    have hsub : (x - 1).toNat = x.toNat - 1 :=
      UInt64.toNat_sub_of_le x 1 (UInt64.le_iff_toNat_le.mpr (Nat.one_le_iff_ne_zero.mpr hne))
    rw [popcnt_loop, if_pos hx, ih, UInt64.toNat_and, hsub, ← popcount_and_sub_one hne]
    omega
  | case2 x count hx =>
    rw [popcnt_loop, if_neg hx, not_not.mp hx]
    simp

theorem popcnt_eq (x : UInt64) : popcnt x = popcount x.toNat := popcnt_loop_eq x 0

theorem round_down_to_power_of_2_toNat (x : UInt64) :
    (round_down_to_power_of_2 x).toNat = 2 ^ x.toNat.log2 := by
  have hne : x ||| 1 ≠ 0 := by
    have hle := Nat.right_le_or (n := x.toNat) (m := 1)
    rw [ne_eq, ← UInt64.toNat_inj, UInt64.toNat_or]
    exact (Nat.lt_of_lt_of_le Nat.one_pos hle).ne'
  have hlt : x.toNat.log2 < 64 := by
    by_cases hx : x.toNat = 0
    · rw [hx]
      simp
    · exact (Nat.log2_lt hx).mpr x.toNat_lt
  have hbit : highest_one (x ||| 1) = x.toNat.log2 := by
    rw [highest_one_eq_log2 hne, UInt64.toNat_or]
    exact log2_or_one x.toNat
  have hshift : (UInt64.ofNat x.toNat.log2).toNat % 64 = x.toNat.log2 := by
    rw [UInt64.toNat_ofNat']
    omega
  unfold round_down_to_power_of_2
  rw [hbit, UInt64.toNat_shiftLeft, hshift, UInt64.toNat_one, Nat.one_shiftLeft]
  exact Nat.mod_eq_of_lt (Nat.pow_lt_pow_right (by omega) hlt)

theorem round_down_to_power_of_2_ne_zero (x : UInt64) : round_down_to_power_of_2 x ≠ 0 := by
  rw [ne_eq, ← UInt64.toNat_inj, round_down_to_power_of_2_toNat]
  exact (Nat.two_pow_pos _).ne'

end ryefs
