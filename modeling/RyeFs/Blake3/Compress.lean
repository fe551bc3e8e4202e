import RyeFs.Blake3.Portable
import RyeFs.Lib.Lanes

open bits lanes

namespace ryefs

theorem store32_toNat (w : UInt32) (i : Fin 4) :
    (store32 w)[i].toNat = w.toNat / 2 ^ (8 * i.val) % 256 := by
  have hbyte (shift : UInt32) (hshift : shift.toNat < 32) :
      (w >>> shift).toUInt8.toNat = w.toNat / 2 ^ shift.toNat % 256 := by
    rw [UInt32.toNat_toUInt8, UInt32.toNat_shiftRight, Nat.mod_eq_of_lt hshift,
      Nat.shiftRight_eq_div_pow]
  match i with
  | 0 => exact hbyte 0 (by decide)
  | 1 => exact hbyte 8 (by decide)
  | 2 => exact hbyte 16 (by decide)
  | 3 => exact hbyte 24 (by decide)

theorem load32_store32 (w : UInt32) : load32 (store32 w) = w := by
  have hw := w.toNat_lt
  have h0 := store32_toNat w 0
  have h1 := store32_toNat w 1
  have h2 := store32_toNat w 2
  have h3 := store32_toNat w 3
  rw [← UInt32.toNat_inj, load32_toNat]
  simp only [Fin.getElem_fin] at h0 h1 h2 h3
  change (store32 w)[0].toNat = _ at h0
  change (store32 w)[1].toNat = w.toNat / 2 ^ 8 % 256 at h1
  change (store32 w)[2].toNat = w.toNat / 2 ^ 16 % 256 at h2
  change (store32 w)[3].toNat = w.toNat / 2 ^ 24 % 256 at h3
  rw [h0, h1, h2, h3]
  change w.toNat / 1 % 256 + _ + _ + _ = _
  omega

theorem store32_load32 (src : Vector UInt8 4) : store32 (load32 src) = src := by
  have h0 := src[0].toNat_lt
  have h1 := src[1].toNat_lt
  have h2 := src[2].toNat_lt
  have h3 := src[3].toNat_lt
  have hload := load32_toNat src
  have hbyte (i : Fin 4) : (store32 (load32 src))[i] = src[i] := by
    rw [← UInt8.toNat_inj, store32_toNat, hload]
    obtain rfl | rfl | rfl | rfl : i = 0 ∨ i = 1 ∨ i = 2 ∨ i = 3 := by omega
    · change _ / 1 % 256 = src[0].toNat; omega
    · change _ / 2 ^ 8 % 256 = src[1].toNat; omega
    · change _ / 2 ^ 16 % 256 = src[2].toNat; omega
    · change _ / 2 ^ 24 % 256 = src[3].toNat; omega
  apply Vector.ext
  intro i hi
  exact hbyte ⟨i, hi⟩

theorem getElem_store_words {n : Nat} (words : Vector UInt32 n) (i : Nat) (hi : i < n * 4) :
    (store_words words)[i] = (store32 words[i / 4])[i % 4] := by
  unfold store_words
  simp [Vector.getElem_flatten]

theorem word_at_store_words {n : Nat} (words : Vector UInt32 n) (i : Fin n) :
    word_at (store_words words) i = store32 (words.get i) := by
  apply Vector.ext
  intro j hj
  have hdiv : (i.val * 4 + j) / 4 = i.val := by omega
  have hmod : (i.val * 4 + j) % 4 = j := by omega
  unfold word_at
  simp only [Vector.getElem_ofFn, getElem_store_words, hdiv, hmod]
  rfl

theorem load_words_store_words {n : Nat} (words : Vector UInt32 n) :
    load_words (store_words words) = words := by
  apply Vector.ext
  intro i hi
  unfold load_words
  rw [Vector.getElem_ofFn, word_at_store_words, load32_store32]
  rfl

theorem store_words_load_words {n : Nat} (src : Vector UInt8 (n * 4)) :
    store_words (load_words src) = src := by
  apply Vector.ext
  intro i hi
  have hplace : i / 4 * 4 + i % 4 = i := Nat.div_add_mod' i 4
  rw [getElem_store_words]
  unfold load_words word_at
  simp only [Vector.getElem_ofFn, store32_load32, hplace]

/-- Words and their bytes determine each other, at every length, and byte `j` of a stored
word is the one of weight `2 ^ (8 * j)`: the format is little-endian. -/
theorem words_round_trip (n : Nat) :
    Function.LeftInverse store_words (load_words (n := n)) ∧
      Function.RightInverse store_words (load_words (n := n)) ∧
      ∀ (words : Vector UInt32 n) (i : Fin n) (j : Fin 4),
        (word_at (store_words words) i)[j].toNat = (words.get i).toNat / 2 ^ (8 * j.val) % 256 := by
  refine ⟨store_words_load_words, load_words_store_words, fun words i j => ?_⟩
  rw [word_at_store_words]
  exact store32_toNat (words.get i) j

/-- The low bits of a word move to the top, and all others down. -/
theorem rotr32_toNat (w c : UInt32) (hpos : 0 < c.toNat) (hlt : c.toNat < 32) :
    (rotr32 w c).toNat = w.toNat / 2 ^ c.toNat + w.toNat % 2 ^ c.toNat * 2 ^ (32 - c.toNat) := by
  have hpow : 2 ^ 32 = 2 ^ (32 - c.toNat) * 2 ^ c.toNat := by
    rw [← Nat.pow_add, Nat.sub_add_cancel hlt.le]
  have hdown : w.toNat / 2 ^ c.toNat < 2 ^ (32 - c.toNat) := by
    rw [Nat.div_lt_iff_lt_mul (Nat.two_pow_pos _), ← hpow]
    exact w.toNat_lt
  have hcount : (32 - c).toNat = 32 - c.toNat :=
    UInt32.toNat_sub_of_le 32 c (UInt32.le_iff_toNat_le.mpr hlt.le)
  have hup : (w.toNat <<< (32 - c.toNat)) % 2 ^ 32 =
      (w.toNat % 2 ^ c.toNat) <<< (32 - c.toNat) := by
    rw [Nat.shiftLeft_eq, Nat.shiftLeft_eq, hpow, Nat.mul_comm (2 ^ (32 - c.toNat)),
      Nat.mul_mod_mul_right]
  unfold rotr32
  rw [UInt32.toNat_or, UInt32.toNat_shiftRight, UInt32.toNat_shiftLeft, hcount,
    Nat.mod_eq_of_lt hlt, Nat.mod_eq_of_lt (show 32 - c.toNat < 32 by omega), hup,
    Nat.shiftRight_eq_div_pow, or_shiftLeft_eq_add hdown]

theorem rotr32_injective {c : UInt32} (hpos : 0 < c.toNat) (hlt : c.toNat < 32) :
    Function.Injective fun w => rotr32 w c := by
  intro w v h
  have hword := congrArg UInt32.toNat h
  simp only [rotr32_toNat _ c hpos hlt] at hword
  have hsplit (x : UInt32) : x.toNat / 2 ^ c.toNat < 2 ^ (32 - c.toNat) := by
    rw [Nat.div_lt_iff_lt_mul (Nat.two_pow_pos _), ← Nat.pow_add, Nat.sub_add_cancel hlt.le]
    exact x.toNat_lt
  have hdiv := congrArg (· % 2 ^ (32 - c.toNat)) hword
  simp only [Nat.add_mul_mod_self_right, Nat.mod_eq_of_lt (hsplit _)] at hdiv
  have hmod : w.toNat % 2 ^ c.toNat = v.toNat % 2 ^ c.toNat := by
    rw [hdiv, Nat.add_left_cancel_iff] at hword
    exact Nat.eq_of_mul_eq_mul_right (Nat.two_pow_pos _) hword
  rw [← UInt32.toNat_inj, ← Nat.div_add_mod w.toNat (2 ^ c.toNat), hdiv, hmod, Nat.div_add_mod]

/-- The mixing function loses nothing, whatever the message words are. -/
theorem g_injective {a b c d : Fin 16} (hab : a ≠ b) (had : a ≠ d) (hbc : b ≠ c) (hcd : c ≠ d)
    (x y : UInt32) : Function.Injective fun state => g state a b c d x y := by
  have hsum (z : UInt32) : Function.Injective fun s : Vector UInt32 16 => s.set a (s[a] + s[b] + z) :=
    set_injective a (fun s => s[a] + s[b] + z) fun s t hothers h => by
      rw [hothers b hab.symm, UInt32.add_left_inj, UInt32.add_left_inj] at h
      exact h
  have hadd : Function.Injective fun s : Vector UInt32 16 => s.set c (s[c] + s[d]) :=
    set_injective c (fun s => s[c] + s[d]) fun s t hothers h => by
      rw [hothers d hcd.symm, UInt32.add_left_inj] at h
      exact h
  have hrot {i j : Fin 16} (hij : i ≠ j) {n : UInt32} (hpos : 0 < n.toNat) (hlt : n.toNat < 32) :
      Function.Injective fun s : Vector UInt32 16 => s.set i (rotr32 (s[i] ^^^ s[j]) n) :=
    set_injective i (fun s => rotr32 (s[i] ^^^ s[j]) n) fun s t hothers h => by
      have hwords := rotr32_injective hpos hlt h
      rw [hothers j hij.symm, UInt32.xor_left_inj] at hwords
      exact hwords
  have hfirst := (hrot hbc (n := 12) (by decide) (by decide)).comp
    (hadd.comp ((hrot had.symm (n := 16) (by decide) (by decide)).comp (hsum x)))
  have hsecond := (hrot hbc (n := 7) (by decide) (by decide)).comp
    (hadd.comp ((hrot had.symm (n := 8) (by decide) (by decide)).comp (hsum y)))
  exact hsecond.comp hfirst

/-- Neither does a round. -/
theorem round_fn_injective (msg : Vector UInt32 16) (round : Fin 7) :
    Function.Injective fun state => round_fn state msg round := by
  have hg {a b c d : Fin 16} (hne : a ≠ b ∧ a ≠ d ∧ b ≠ c ∧ c ≠ d) (x y : UInt32) :
      Function.Injective fun state => g state a b c d x y :=
    g_injective hne.1 hne.2.1 hne.2.2.1 hne.2.2.2 x y
  intro s t h
  exact hg (a := 0) (b := 4) (c := 8) (d := 12) (by decide) _ _
    (hg (a := 1) (b := 5) (c := 9) (d := 13) (by decide) _ _
      (hg (a := 2) (b := 6) (c := 10) (d := 14) (by decide) _ _
        (hg (a := 3) (b := 7) (c := 11) (d := 15) (by decide) _ _
          (hg (a := 0) (b := 5) (c := 10) (d := 15) (by decide) _ _
            (hg (a := 1) (b := 6) (c := 11) (d := 12) (by decide) _ _
              (hg (a := 2) (b := 7) (c := 8) (d := 13) (by decide) _ _
                (hg (a := 3) (b := 4) (c := 9) (d := 14) (by decide) _ _ h)))))))

theorem rounds_injective (msg : Vector UInt32 16) (rounds : List (Fin 7)) :
    Function.Injective fun state => rounds.foldl (fun state => round_fn state msg) state := by
  induction rounds with
  | nil => exact Function.injective_id
  | cons round rounds ih => exact ih.comp (round_fn_injective msg round)

/-- Whatever the message, each sequence of rounds permutes the states. -/
theorem rounds_bijective (msg : Vector UInt32 16) (rounds : List (Fin 7)) :
    Function.Bijective fun state => rounds.foldl (fun state => round_fn state msg) state := by
  have hwords : Finite UInt32 := Finite.of_injective UInt32.toFin fun _ _ => UInt32.toFin_inj.mp
  exact Finite.injective_iff_bijective.mp (rounds_injective msg rounds)

theorem counter_words_injective {counter counter' : UInt64}
    (hlow : counter_low counter = counter_low counter')
    (hhigh : counter_high counter = counter_high counter') : counter = counter' := by
  have hlow := congrArg UInt32.toNat hlow
  have hhigh := congrArg UInt32.toNat hhigh
  have hshift (x : UInt64) : (x >>> 32).toNat = x.toNat / 2 ^ 32 := by
    rw [UInt64.toNat_shiftRight, Nat.shiftRight_eq_div_pow]
    rfl
  unfold counter_low at hlow
  unfold counter_high at hhigh
  rw [UInt64.toNat_toUInt32, UInt64.toNat_toUInt32] at hlow hhigh
  rw [hshift, hshift] at hhigh
  rw [← UInt64.toNat_inj]
  have hcounter := counter.toNat_lt
  have hcounter' := counter'.toNat_lt
  omega

theorem initial_state_injective {cv cv' : Vector UInt32 8} {block_len block_len' : UInt8}
    {counter counter' : UInt64} {flags flags' : UInt8}
    (h : initial_state cv block_len counter flags = initial_state cv' block_len' counter' flags') :
    cv = cv' ∧ block_len = block_len' ∧ counter = counter' ∧ flags = flags' := by
  have hword (i : Nat) (hi : i < 16) : (initial_state cv block_len counter flags)[i] =
      (initial_state cv' block_len' counter' flags')[i] := by
    rw [h]
  have hbyte {b b' : UInt8} (hb : b.toUInt32 = b'.toUInt32) : b = b' := by
    rw [← UInt8.toNat_inj, ← UInt8.toNat_toUInt32, hb, UInt8.toNat_toUInt32]
  refine ⟨?_, hbyte (hword 14 (by omega)), ?_, hbyte (hword 15 (by omega))⟩
  · apply Vector.ext
    intro i hi
    obtain rfl | rfl | rfl | rfl | rfl | rfl | rfl | rfl :
        i = 0 ∨ i = 1 ∨ i = 2 ∨ i = 3 ∨ i = 4 ∨ i = 5 ∨ i = 6 ∨ i = 7 := by omega
    · exact hword 0 (by omega)
    · exact hword 1 (by omega)
    · exact hword 2 (by omega)
    · exact hword 3 (by omega)
    · exact hword 4 (by omega)
    · exact hword 5 (by omega)
    · exact hword 6 (by omega)
    · exact hword 7 (by omega)
  · exact counter_words_injective (hword 12 (by omega)) (hword 13 (by omega))

theorem compress_pre_eq_foldl (cv : Vector UInt32 8) (block : Vector UInt8 64) (block_len : UInt8)
    (counter : UInt64) (flags : UInt8) :
    compress_pre cv block block_len counter flags =
      [0, 1, 2, 3, 4, 5, 6].foldl (fun state => round_fn state (load_block_words block))
        (initial_state cv block_len counter flags) := rfl

/-- For every block, the rounds are injective in everything else that goes into a
compression. -/
theorem compress_pre_injective {block : Vector UInt8 64} {cv cv' : Vector UInt32 8}
    {block_len block_len' : UInt8} {counter counter' : UInt64} {flags flags' : UInt8}
    (h : compress_pre cv block block_len counter flags =
      compress_pre cv' block block_len' counter' flags') :
    cv = cv' ∧ block_len = block_len' ∧ counter = counter' ∧ flags = flags' := by
  apply initial_state_injective
  rw [compress_pre_eq_foldl, compress_pre_eq_foldl] at h
  exact rounds_injective (load_block_words block) [0, 1, 2, 3, 4, 5, 6] h

theorem store_words_injective {n : Nat} : Function.Injective (store_words (n := n)) :=
  Function.LeftInverse.injective load_words_store_words

/-- The feed forward loses nothing either: the upper half gives the upper half of the
state, and with it the lower one. -/
theorem xof_words_injective (cv : Vector UInt32 8) : Function.Injective (xof_words cv) := by
  intro s t h
  have hword (i : Nat) (hi : i < 16) : (xof_words cv s)[i] = (xof_words cv t)[i] := by
    rw [h]
  have hupper (i : Nat) (hi : i < 8) : s[i + 8] = t[i + 8] := by
    have hget := hword (i + 8) (by omega)
    unfold xof_words at hget
    rw [Vector.getElem_ofFn, Vector.getElem_ofFn, dif_neg (by simp), dif_neg (by simp)] at hget
    exact (UInt32.xor_left_inj _).mp hget
  have hlower (i : Nat) (hi : i < 8) : s[i] = t[i] := by
    have hget := hword i (by omega)
    unfold xof_words at hget
    rw [Vector.getElem_ofFn, Vector.getElem_ofFn, dif_pos hi, dif_pos hi] at hget
    dsimp only at hget
    rw [hupper i hi] at hget
    exact (UInt32.xor_left_inj _).mp hget
  apply Vector.ext
  intro i hi
  by_cases hlt : i < 8
  · exact hlower i hlt
  · obtain ⟨j, rfl⟩ := Nat.exists_eq_add_of_le' (Nat.not_lt.mp hlt)
    exact hupper j (by omega)

/-- From one chaining value and block, the extended output never repeats, neither over
the counter nor over the flags. -/
theorem compress_xof_injective {cv : Vector UInt32 8} {block : Vector UInt8 64}
    {block_len block_len' : UInt8} {counter counter' : UInt64} {flags flags' : UInt8}
    (h : blake3_compress_xof_portable cv block block_len counter flags =
      blake3_compress_xof_portable cv block block_len' counter' flags') :
    block_len = block_len' ∧ counter = counter' ∧ flags = flags' := by
  exact (compress_pre_injective (xof_words_injective cv (store_words_injective h))).2

/-- The chaining value is the first half of the extended output. -/
theorem getElem_compress_xof (cv : Vector UInt32 8) (block : Vector UInt8 64) (block_len : UInt8)
    (counter : UInt64) (flags : UInt8) (i : Nat) (hi : i < 32) :
    (blake3_compress_xof_portable cv block block_len counter flags)[i] =
      (store_cv_words (blake3_compress_in_place_portable cv block block_len counter flags))[i] := by
  change (store_words (xof_words cv _))[i] = (store_words _)[i]
  rw [getElem_store_words, getElem_store_words]
  have hword : (xof_words cv (compress_pre cv block block_len counter flags))[i / 4] =
      (blake3_compress_in_place_portable cv block block_len counter flags)[i / 4] := by
    unfold xof_words blake3_compress_in_place_portable
    rw [Vector.getElem_ofFn, Vector.getElem_ofFn, dif_pos (by dsimp only; omega)]
  rw [hword]

end ryefs
