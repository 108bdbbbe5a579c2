import ChunkArchive.Proofs.Archive.Damage

/-!
# Where saved blocks lie

The blocks of a saved archive tile its data file (`Archive.save_tiles`): each begins where the one
before it ends, by the size field that is read in the mode of the archive. It does not matter which
blocks are damaged, what they are used for, or whether the names of the dictionary can be read
again; only stored blocks of 4 GiB have to be ruled out, as no size field holds their length.
-/

set_option autoImplicit false

namespace ChunkArchive

/-- From `start` to `stop` the blocks lie one behind the other, each as long as its descriptor says
for the mode. -/
def Tiles (compressed : Bool) : (start : Nat) → List Descriptor → (stop : Nat) → Prop
  | start, [], stop => start = stop
  | start, d :: ds, stop => d.offset.toNat = start ∧ Tiles compressed (d.stop compressed) ds stop

namespace Tiles

variable {compressed : Bool} {start stop : Nat} {ds : List Descriptor}

theorem le (h : Tiles compressed start ds stop) : start ≤ stop := by
  induction ds generalizing start with
  | nil => exact Nat.le_of_eq h
  | cons d ds ih =>
      obtain ⟨rfl, hrest⟩ := h
      exact (Nat.le_add_right _ _).trans (ih hrest)

theorem stop_le (h : Tiles compressed start ds stop) : ∀ d ∈ ds, d.stop compressed ≤ stop := by
  induction ds generalizing start with
  | nil => simp
  | cons d ds ih =>
      obtain ⟨-, hrest⟩ := h
      exact List.forall_mem_cons.mpr ⟨hrest.le, ih hrest⟩

end Tiles

/-- Offsets are given out so that the blocks tile the bytes that are stored. -/
theorem tiles_of_assignOffsets {compressed : Bool} {index offset : Nat}
    {stored : List (Descriptor × Bytes)} {ds : List Descriptor}
    (hsizes : ∀ s ∈ stored, (s.1.storedSize compressed).toNat = s.2.length)
    (h : assignOffsets index offset stored = .ok ds) :
    Tiles compressed offset ds (offset + (stored.flatMap Prod.snd).length) := by
  induction stored generalizing index offset ds with
  | nil =>
      cases h
      rfl
  | cons s stored ih =>
      obtain ⟨hsize, hsizes⟩ := List.forall_mem_cons.mp hsizes
      rw [assignOffsets] at h
      split at h
      · next hlt =>
          obtain ⟨others, hothers, h⟩ := Outcome.bind_eq_ok.mp h
          obtain rfl := Outcome.pure_eq_ok.mp h
          have hoffset : (UInt32.ofNat offset).toNat = offset := by
            rw [UInt32.toNat_ofNat']
            omega
          have hstop : Descriptor.stop { s.1 with offset := UInt32.ofNat offset } compressed
              = offset + s.2.length := by
            rw [Descriptor.stop, ← hsize, hoffset]
            rfl
          rw [List.flatMap_cons, List.length_append, ← Nat.add_assoc]
          refine ⟨hoffset, ?_⟩
          rw [hstop]
          exact ih hsizes hothers
      · cases h

namespace Archive

variable {codec : Codec} {level : Nat}

/-- **The blocks of a saved archive tile its data file.** The first one lies at the front, each of
the others begins where the one before it ends, and the last one ends with the data. So each lies
inside, and is read from the bytes that were stored for it. -/
theorem save_tiles {a : Archive} {saved : FilePair} (hsave : a.save codec level = .ok saved)
    (hshort : ∀ s ∈ a.stored codec level, s.2.length < 2 ^ 32) :
    ∃ d, Dictionary.load saved.dictionary = .ok d ∧ d.isCompressed = a.isCompressed
      ∧ d.blocks.length = a.blocks.length
      ∧ Tiles a.isCompressed 0 d.blocks saved.data.length
      ∧ d.checkBounds saved.data.length = .ok ()
      ∧ ∀ i e, d.blocks[i]? = some e → ∃ s, (a.stored codec level)[i]? = some s
          ∧ saved.stored? i = some s.2
          ∧ Block.load codec a.isCompressed saved.data e
              = Block.ofStored codec a.isCompressed e s.2 := by
  obtain ⟨ds, hds, hdictionary, hdata⟩ := save_eq_ok.mp hsave
  obtain ⟨names, trailer, hload⟩ := Dictionary.exists_load_of_save hdictionary
  have hplaces := places_of_assignOffsets hds
  have hsizes : ∀ s ∈ a.stored codec level,
      (s.1.storedSize a.isCompressed).toNat = s.2.length := by
    intro s hs
    obtain ⟨x, -, rfl⟩ := List.mem_map.mp hs
    rw [Block.storedSize_store]
    exact UInt32.toNat_ofNat_of_lt' (hshort _ hs)
  have htiles := tiles_of_assignOffsets hsizes hds
  rw [Nat.zero_add, ← hdata] at htiles
  refine ⟨_, hload, rfl, ?_, htiles, ?_, fun i e he => ?_⟩
  · show ds.length = a.blocks.length
    rw [← hplaces.length_eq, stored, List.length_map]
  · exact Dictionary.checkBounds_eq_ok.mpr htiles.stop_le
  · have he : ds[i]? = some e := he
    obtain ⟨s, hs, hplace⟩ := forall₂_getElem? hplaces.flip he
    have hmem := List.mem_of_getElem? hs
    obtain ⟨x, -, rfl⟩ := List.mem_map.mp hmem
    have hslice := Block.slice?_of_places (hshort _ hmem) hplace
    rw [← hdata] at hslice
    refine ⟨_, hs, ?_, Block.load_of_slice? hslice⟩
    rw [FilePair.stored?_eq hload]
    show (ds[i]?.bind _) = _
    rw [he, Option.bind_some]
    exact hslice

/-- A block that is packed, one of another use, an empty one and one that is damaged; the name has a
zero byte. -/
theorem save_tiles_mixed :
    let forest : Forest := ⟨[.ofPayload 5 0 1 [7, 8]]⟩
    let a : Archive := ⟨{ isCompressed := true, names := ["a\x00b"] },
      [⟨⟨0, 12, 17, 0, (1, 2, 3)⟩, forest.table, none⟩, ⟨⟨17, 3, 3, 1, (0, 0, 0)⟩, [6, 7, 8], none⟩,
        ⟨⟨0, 9, 9, 2, (0, 0, 0)⟩, [], none⟩, ⟨⟨0, 5, 7, 0, (0, 0, 0)⟩, [0xFF], some .corrupt⟩],
      forest⟩
    ∃ saved d, a.save Codec.deflate 0 = .ok saved
      ∧ (∀ s ∈ a.stored Codec.deflate 0, s.2.length < 2 ^ 32)
      ∧ Dictionary.load saved.dictionary = .ok d
      ∧ Tiles true 0 d.blocks saved.data.length
      ∧ saved.stored? 3 = some [0xFF] := by
  intro forest a
  let saved : FilePair := ⟨
    [0x58, 0x24, 0xF3, 0xA9, 1, 0, 1, 0, 12, 0, 0, 0, 4, 0, 1, 0,
      0, 0, 0, 0, 12, 0, 0, 0, 17, 0, 0, 0, 1, 2, 0, 3,
      17, 0, 0, 0, 3, 0, 0, 0, 3, 0, 0, 0, 0, 0, 1, 0,
      20, 0, 0, 0, 0, 0, 0, 0, 0, 0, 0, 0, 0, 0, 2, 0,
      20, 0, 0, 0, 5, 0, 0, 0, 1, 0, 0, 0, 0, 0, 0, 0, 0x61, 0, 0x62, 0],
    [1, 12, 0, 0xF3, 0xFF, 5, 0, 0, 0, 1, 0, 0, 0, 2, 0, 0, 0, 6, 7, 8, 0xFF]⟩
  have hsave : a.save Codec.deflate 0 = .ok saved := by decide +kernel
  have hshort : ∀ s ∈ a.stored Codec.deflate 0, s.2.length < 2 ^ 32 := by decide +kernel
  obtain ⟨d, hload, -, -, htiles, -, -⟩ := save_tiles hsave hshort
  exact ⟨saved, d, hsave, hshort, hload, htiles, by decide +kernel⟩

end Archive

end ChunkArchive
