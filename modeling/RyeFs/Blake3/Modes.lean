import RyeFs.Blake3.Run

open hashtree windows

namespace ryefs

/-- The key that a context stands for. -/
def contextKey (context : List UInt8) : Vector UInt32 8 :=
  load_key_words (Vector.ofFn fun i =>
    rootByte (treeOutput IV DERIVE_KEY_CONTEXT (hashTree 0 context)) i.val)

theorem init_derive_key_raw_eq {target : Target} (htarget : target.Conforms)
    {context : List UInt8} (hsize : context.length < 2 ^ 64) :
    blake3_hasher_init_derive_key_raw target context =
      some (hasher_init_base (contextKey context) DERIVE_KEY_MATERIAL) := by
  obtain ⟨self, hupdate, hself⟩ :=
    (represents_init IV DERIVE_KEY_CONTEXT).update htarget context hsize
  have hfinal : blake3_hasher_finalize_seek target self 0 (UInt64.ofNat BLAKE3_KEY_LEN) =
      some (hashWindow IV DERIVE_KEY_CONTEXT context 0 32) := hself.finalize_seek htarget 0 _
  have hbytes (i : Fin 32) : (hashWindow IV DERIVE_KEY_CONTEXT context 0 32).getD i.val 0 =
      rootByte (treeOutput IV DERIVE_KEY_CONTEXT (hashTree 0 context)) i.val := by
    simp [hashWindow, window]
  unfold blake3_hasher_init_derive_key_raw blake3_hasher_finalize contextKey
  simp only [hupdate, hfinal, hbytes, Option.bind_eq_bind, Option.bind_some]
  rfl

/-- Deriving a key: the context is read up to its first zero byte, and the output is
the hash of the key material under the key that the context stands for. -/
theorem derive_key_run {target : Target} (htarget : target.Conforms) {context : List UInt8}
    {pieces : List (List UInt8)} (hcontext : (context.takeWhile fun b => b ≠ 0).length < 2 ^ 64)
    (hmaterial : pieces.flatten.length < 2 ^ 64) :
    ∃ start self, blake3_hasher_init_derive_key target context = some start ∧
      pieces.foldlM (blake3_hasher_update target) start = some self ∧
      ∀ seek out_len, blake3_hasher_finalize_seek target self seek out_len =
        some (hashWindow (contextKey (context.takeWhile fun b => b ≠ 0)) DERIVE_KEY_MATERIAL
          pieces.flatten seek.toNat out_len.toNat) := by
  obtain ⟨self, hself, hrep⟩ := (represents_init (contextKey (context.takeWhile fun b => b ≠ 0))
    DERIVE_KEY_MATERIAL).updates htarget pieces hmaterial
  exact ⟨_, self, init_derive_key_raw_eq htarget hcontext, hself, hrep.finalize_seek htarget⟩

/-- A key from material of several chunks, under a context that ends at its zero byte. -/
theorem derive_key_run_chunks :
    ∃ start self,
      blake3_hasher_init_derive_key vectorTarget [107, 101, 121, 0, 120] = some start ∧
      messageCut.foldlM (blake3_hasher_update vectorTarget) start = some self ∧
      ∀ seek out_len, blake3_hasher_finalize_seek vectorTarget self seek out_len =
        some (hashWindow (contextKey [107, 101, 121]) DERIVE_KEY_MATERIAL messageCut.flatten
          seek.toNat out_len.toNat) :=
  derive_key_run vectorTarget_conforms (by decide) length_messageCut_lt

end ryefs
