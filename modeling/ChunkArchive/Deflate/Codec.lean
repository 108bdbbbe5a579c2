import ChunkArchive.Deflate.Encode

/-!
# The deflate codec

Deflating is undone by inflating, and what it writes does not begin like a zlib frame: together a
`Codec`. The work is in the stored blocks, since the other form is checked where it is written.
-/

set_option autoImplicit false

namespace ChunkArchive.Deflate

/-! ## Stored blocks -/

theorem inflateStored_append (out : Output) (begun : List Bool) (bytes rest : Bytes)
    (h : bytes.length ≤ storedLimit) :
    inflateStored out ⟨begun, Bytes.ofWord16 (UInt16.ofNat bytes.length)
      ++ Bytes.ofWord16 (UInt16.ofNat (0xFFFF - bytes.length)) ++ bytes ++ rest⟩ =
      .ok (out ++ bytes, ⟨[], rest⟩) := by
  have hword (n : Nat) (hn : n ≤ 0xFFFF) : (UInt16.ofNat n).toNat = n := by
    rw [UInt16.toNat_ofNat']
    omega
  simp only [storedLimit] at h
  simp only [inflateStored, Bytes.ofWord16, List.cons_append, List.nil_append,
    Bytes.toWord16_ofWord16]
  simp only [hword _ h, hword (0xFFFF - bytes.length) (Nat.sub_le _ _)]
  rw [if_neg (by omega), if_neg (by simp), List.take_left, List.drop_left]

theorem inflateBlocks_storedBlock (bound : Nat) (out : Output) (isFinal : Bool) (bytes rest : Bytes)
    (h : bytes.length ≤ storedLimit) :
    inflateBlocks (bound + 1) out ⟨[], storedBlock isFinal bytes ++ rest⟩ =
      if isFinal then .ok (out ++ bytes) else inflateBlocks bound (out ++ bytes) ⟨[], rest⟩ := by
  have hs := inflateStored_append out (List.replicate 5 false) bytes rest h
  have hhead : (do return (← BitReader.bit, ← BitReader.number 2) : BitReader (Bool × Nat))
      ⟨[], storedBlock isFinal bytes ++ rest⟩ = .ok ((isFinal, 0), ⟨List.replicate 5 false,
        Bytes.ofWord16 (UInt16.ofNat bytes.length)
          ++ Bytes.ofWord16 (UInt16.ofNat (0xFFFF - bytes.length)) ++ bytes ++ rest⟩) := by
    cases isFinal <;> rfl
  rw [inflateBlocks, hhead]
  simp only [inflateBlock, hs]

theorem inflateBlocks_storedBlocks (others bound : Nat) (out : Output) (bytes : Bytes)
    (h : bytes.length ≤ (others + 1) * storedLimit) (hb : others < bound) :
    inflateBlocks bound out ⟨[], storedBlocks others bytes⟩ = .ok (out ++ bytes) := by
  induction others generalizing bound out bytes with
  | zero =>
    obtain ⟨bound, rfl⟩ : ∃ b, bound = b + 1 := ⟨bound - 1, by omega⟩
    have := inflateBlocks_storedBlock bound out true bytes [] (by simpa using h)
    simpa [storedBlocks] using this
  | succ others ih =>
    obtain ⟨bound, rfl⟩ : ∃ b, bound = b + 1 := ⟨bound - 1, by omega⟩
    rw [storedBlocks, inflateBlocks_storedBlock _ _ _ _ _ (List.length_take_le _ _), if_neg (by simp),
      ih _ _ _ (by rw [List.length_drop, Nat.sub_le_iff_le_add]; rw [Nat.succ_mul] at h; exact h)
        (by omega)]
    congr 1
    apply Array.toList_inj.mp
    simp

theorem lt_length_storedBlocks (others : Nat) (bytes : Bytes) :
    others < (storedBlocks others bytes).length := by
  induction others generalizing bytes with
  | zero => simp [storedBlocks, storedBlock]
  | succ others ih =>
    have := ih (bytes.drop storedLimit)
    simp only [storedBlocks, storedBlock, List.length_append, List.length_cons]
    omega

theorem inflate_store (bytes : Bytes) : inflate (store bytes) = .complete bytes := by
  have hl := lt_length_storedBlocks ((bytes.length - 1) / storedLimit) bytes
  have hn : bytes.length ≤ ((bytes.length - 1) / storedLimit + 1) * storedLimit := by
    have := Nat.div_add_mod (bytes.length - 1) storedLimit
    have := Nat.mod_lt (bytes.length - 1) (show 0 < storedLimit by decide)
    rw [Nat.succ_mul, Nat.mul_comm]
    omega
  rw [inflate, store, BitStream.ofBytes, inflateBlocks_storedBlocks _ _ _ _ hn (by omega)]
  simp

theorem skipFrame_store (bytes : Bytes) : skipFrame (store bytes) = store bytes := by
  rw [store]
  generalize (bytes.length - 1) / storedLimit = others
  cases others <;> simp [storedBlocks, storedBlock, skipFrame]

/-! ## Both forms -/

theorem inflate_deflate (level : Nat) (bytes : Bytes) :
    inflate (deflate level bytes) = .complete bytes := by
  simp only [deflate]
  split
  · exact inflate_store bytes
  · split
    · next h => exact h.2.1
    · exact inflate_store bytes

theorem skipFrame_deflate (level : Nat) (bytes : Bytes) :
    skipFrame (deflate level bytes) = deflate level bytes := by
  simp only [deflate]
  split
  · exact skipFrame_store bytes
  · split
    · next h => exact h.2.2
    · exact skipFrame_store bytes

end ChunkArchive.Deflate

namespace ChunkArchive

def Codec.deflate : Codec where
  pack := Deflate.deflate
  unpack := Deflate.inflate
  unpack_pack := Deflate.inflate_deflate
  skipFrame_pack := Deflate.skipFrame_deflate

end ChunkArchive
