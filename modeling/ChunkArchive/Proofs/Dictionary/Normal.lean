import ChunkArchive.Proofs.Dictionary.RoundTrip

/-!
# Saving what has been loaded

Two places of a dictionary file are not kept as they are read: the flag for packed blocks, any byte
but zero of which counts as set, and the size of the largest block, which is computed anew. A file
that is loaded and saved differs from what it was in these two places at most
(`Dictionary.save_of_load`), so saving makes a file normal once and for all.
-/

set_option autoImplicit false

namespace ChunkArchive

namespace Dictionary

/-! ## The largest block -/

/-- The size of the largest block is the greatest of the sizes, and zero where there are none. -/
theorem largestBlock_eq (d : Dictionary) :
    d.largestBlock = (d.blocks.map Descriptor.unpackedSize).max?.getD 0 := by
  unfold largestBlock
  cases d.blocks.map Descriptor.unpackedSize with
  | nil => rfl
  | cons n ns =>
      have hmax : max 0 n = n := if_pos UInt32.zero_le
      rw [List.max?_cons', Option.getD_some, List.foldl_cons, hmax]

/-! ## Files of one dictionary -/

section FileWith

variable (d : Dictionary) (flag flag' : UInt8) (largest largest' : UInt32)

/-- Any two files of a dictionary can be turned into each other by writing over the two places. -/
theorem fileWith_eq_overwrite : d.fileWith flag' largest'
    = Bytes.overwrite (Bytes.overwrite (d.fileWith flag largest) 6 [flag']) 8
        (Bytes.ofWord32 largest') := by
  simp [fileWith, Bytes.overwrite, Bytes.padTo, Bytes.ofWord32, Bytes.ofWord16, Bytes.zeros]

theorem header_le_length_fileWith : 16 ≤ (d.fileWith flag largest).length := by
  simp only [fileWith, List.length_append, List.length_cons, List.length_nil,
    Bytes.ofWord32_length, Bytes.ofWord16_length]
  omega

/-- Two files of a dictionary agree byte by byte outside the two places. -/
theorem getElem?_fileWith {i : Nat} (hflag : i ≠ 6) (hlargest : i < 8 ∨ 12 ≤ i) :
    (d.fileWith flag' largest')[i]? = (d.fileWith flag largest)[i]? := by
  have hheader := d.header_le_length_fileWith flag largest
  have hlength : (d.fileWith flag' largest').length = (d.fileWith flag largest).length := rfl
  by_cases hi : i < (d.fileWith flag largest).length
  · -- the bytes that are written over are the seventh, and the ninth to the twelfth
    rw [d.fileWith_eq_overwrite flag flag' largest largest',
      Bytes.getElem?_overwrite_of_outside, Bytes.getElem?_overwrite_of_outside hi]
    · rw [List.length_singleton]
      omega
    · rw [Bytes.length_overwrite]
      omega
    · rw [Bytes.ofWord32_length]
      omega
  · rw [List.getElem?_eq_none (Nat.le_of_not_lt hi), List.getElem?_eq_none (by omega)]

theorem getElem?_fileWith_flag : (d.fileWith flag largest)[6]? = some flag := by
  rw [d.fileWith_eq_overwrite flag flag largest largest, Bytes.getElem?_overwrite_of_outside]
  · exact Bytes.getElem?_overwrite _ 6 [flag] 0 Nat.one_pos
  · rw [Bytes.length_overwrite]
    have hheader := d.header_le_length_fileWith flag largest
    omega
  · exact Or.inl (by omega)

theorem slice?_fileWith_largest :
    Bytes.slice? (d.fileWith flag largest) 8 12 = some (Bytes.ofWord32 largest) := by
  rw [d.fileWith_eq_overwrite flag flag largest largest]
  exact Bytes.slice?_overwrite _ 8 (Bytes.ofWord32 largest)

end FileWith

/-! ## Saving a loaded file -/

/-- **A file that is loaded and saved keeps its length and all of its bytes** but for the flag for
packed blocks, which becomes zero or one, and the size of the largest block, which becomes what it
is; and what is loaded from the saved file is the same dictionary. -/
theorem save_of_load {bytes : Bytes} {d : Dictionary} (h : load bytes = .ok d) :
    ∃ saved flag, d.save = .ok saved ∧ saved.length = bytes.length
      ∧ (∀ i, i ≠ 6 → i < 8 ∨ 12 ≤ i → saved[i]? = bytes[i]?)
      ∧ bytes[6]? = some flag ∧ saved[6]? = some (if flag = 0 then 0 else 1)
      ∧ Bytes.slice? saved 8 12
          = some (Bytes.ofWord32 ((d.blocks.map Descriptor.unpackedSize).max?.getD 0))
      ∧ load saved = .ok d := by
  obtain ⟨hsavable, hnames, flag, largest, hflag, rfl⟩ := load_eq_ok.mp h
  have hsave : d.save = .ok (d.fileWith d.flag d.largestBlock) := save_eq_ok.mpr ⟨hsavable, rfl⟩
  -- the flag that is written is the one of the file, made zero or one
  have hsame : d.flag = if flag = 0 then 0 else 1 := by
    unfold Dictionary.flag
    by_cases hzero : flag = 0
    · rw [if_pos hzero, if_neg fun hc => hflag.mpr hc hzero]
    · rw [if_neg hzero, if_pos (hflag.mp hzero)]
  refine ⟨d.fileWith d.flag d.largestBlock, flag, hsave, rfl, ?_, ?_, ?_, ?_, ?_⟩
  · intro i hi hi'
    exact d.getElem?_fileWith flag d.flag largest d.largestBlock hi hi'
  · exact d.getElem?_fileWith_flag flag largest
  · rw [getElem?_fileWith_flag, hsame]
  · rw [slice?_fileWith_largest, largestBlock_eq]
  · exact load_save hnames hsave

/-- Two blocks, a table reference, a name that is not ASCII, an empty name and a trailer. -/
def packedPair : Dictionary where
  version := 0x401
  isCompressed := true
  tableReferences := [1, 2, 3, 4, 5, 6, 7, 8]
  names := ["é", ""]
  trailer := [0, 7]
  reserved := (9, 0xA)
  blocks := [⟨0, 0x20, 0x11, 0, (1, 2, 3)⟩, ⟨0x11, 5, 5, 2, (0, 0, 4)⟩]

/-- A file of it with a flag that is not one, and with a wrong size of the largest block, becomes
the one that is saved. -/
theorem save_of_load_packedPair :
    load (packedPair.fileWith 0x80 7) = .ok packedPair
      ∧ packedPair.save = .ok (packedPair.fileWith 1 0x20)
      ∧ load (packedPair.fileWith 1 0x20) = .ok packedPair := by
  have hnames : ∀ name ∈ packedPair.names, 0 ∉ Utf8.encode name := by decide +kernel
  have hload : load (packedPair.fileWith 0x80 7) = .ok packedPair :=
    load_eq_ok.mpr ⟨savable_iff.mpr (by decide), hnames, 0x80, 7, by decide, rfl⟩
  obtain ⟨saved, -, hsave, -, -, -, -, -, hagain⟩ := save_of_load hload
  have hbytes : packedPair.save = .ok (packedPair.fileWith 1 0x20) := by decide +kernel
  obtain rfl : saved = packedPair.fileWith 1 0x20 := Except.ok.inj (hsave.symm.trans hbytes)
  exact ⟨hload, hbytes, hagain⟩

end Dictionary

end ChunkArchive
