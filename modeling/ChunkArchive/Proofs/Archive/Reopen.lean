import ChunkArchive.Archive.Storage
import ChunkArchive.Deflate.Codec
import ChunkArchive.Proofs.Codec
import ChunkArchive.Proofs.Dictionary.RoundTrip
import ChunkArchive.Proofs.Lists

/-!
# Saving an archive and opening it again

A block is stored in one of three ways: packed, plain, or, where it could not be unpacked, as it
was found. The size field that is filled when it is stored is the one that is consulted when it is
loaded (`Block.storedSize_store`), so that the block is found again with the same bytes
(`Block.ofStored_store`). The stored blocks lie one after the other in the data file
(`assignOffsets_places`). Together: a sound archive that is saved opens again with the same frame,
forest and bytes (`Archive.load_save`).
-/

set_option autoImplicit false

namespace ChunkArchive

/-! ## One block -/

namespace Block

variable {codec : Codec} {level : Nat} {compressed : Bool}

/-- The block of descriptor `d` whose bytes in the data file are `stored`. -/
def ofStored (codec : Codec) (compressed : Bool) (d : Descriptor) (stored : Bytes) : Block :=
  if d.isPacked compressed then
    match codec.unpackBlock stored d.unpackedSize.toNat with
    | .ok bytes => ⟨d, bytes, none⟩
    | .error damage => ⟨d, stored, some damage⟩
  else ⟨d, stored, none⟩

theorem load_eq (codec : Codec) (compressed : Bool) (data : Bytes) (d : Descriptor) :
    load codec compressed data d = ofStored codec compressed d
      ((data.drop d.offset.toNat).take (d.storedSize compressed).toNat) := rfl

/-- A block is damaged where it is packed and can not be unpacked. -/
theorem damage_ofStored {d : Descriptor} {stored : Bytes} {damage : Damage} :
    (ofStored codec compressed d stored).damage = some damage ↔ d.isPacked compressed = true
      ∧ codec.unpackBlock stored d.unpackedSize.toNat = .error damage := by
  rw [ofStored]
  by_cases hpacked : d.isPacked compressed = true
  · rw [if_pos hpacked]
    cases codec.unpackBlock stored d.unpackedSize.toNat <;> simp [hpacked]
  · rw [if_neg hpacked]
    simp [hpacked]

/-- What makes a block one that can be stored and found again: its length fits the size fields, and
a damaged one holds bytes that do not unpack to the size in its descriptor. -/
structure Sound (codec : Codec) (b : Block) : Prop where
  fits : b.bytes.length < 2 ^ 32
  damaged : ∀ damage, b.damage = some damage → b.descriptor.holdsChunks = true
    ∧ codec.unpackBlock b.bytes b.descriptor.unpackedSize.toNat = .error damage

/-- Every block that is loaded is sound. -/
theorem sound_load (codec : Codec) (compressed : Bool) (data : Bytes) (d : Descriptor) :
    (load codec compressed data d).Sound codec := by
  have hstored :
      ((data.drop d.offset.toNat).take (d.storedSize compressed).toNat).length < 2 ^ 32 := by
    have := (d.storedSize compressed).toNat_lt
    rw [List.length_take]
    omega
  rw [load_eq, ofStored]
  split
  · next hpacked =>
      split
      · next bytes hbytes =>
          refine ⟨?_, fun damage h => by cases h⟩
          show bytes.length < 2 ^ 32
          rw [Codec.length_of_unpackBlock hbytes]
          exact d.unpackedSize.toNat_lt
      · next damage hdamage =>
          refine ⟨hstored, fun damage' h => ?_⟩
          cases h
          rw [Descriptor.isPacked, Bool.and_eq_true] at hpacked
          exact ⟨hpacked.2, hdamage⟩
  · exact ⟨hstored, fun damage h => by cases h⟩

/-- Of an archive that is not compressed no block is unpacked, and none can be damaged. -/
theorem damage_load_plain (codec : Codec) (data : Bytes) (d : Descriptor) :
    (load codec false data d).damage = none := rfl

/-- The length of the bytes as a size field holds it. -/
def size (b : Block) : UInt32 := UInt32.ofNat b.bytes.length

/-- The four ways to store a block: in a plain archive as it is, in a compressed one as it was
found, packed, or as it is where it holds no chunks. -/
theorem store_cases (codec : Codec) (level : Nat) (compressed : Bool) (b : Block) :
    (compressed = false
      ∧ b.store codec level compressed = ({ b.descriptor with unpackedSize := b.size }, b.bytes))
    ∨ (compressed = true ∧ (∃ damage, b.damage = some damage)
      ∧ b.store codec level compressed = ({ b.descriptor with packedSize := b.size }, b.bytes))
    ∨ (compressed = true ∧ b.damage = none ∧ b.descriptor.holdsChunks = true
      ∧ b.store codec level compressed = ({ b.descriptor with
          unpackedSize := b.size
          packedSize := UInt32.ofNat (codec.pack level b.bytes).length }, codec.pack level b.bytes))
    ∨ (compressed = true ∧ b.damage = none ∧ b.descriptor.holdsChunks = false
      ∧ b.store codec level compressed
        = ({ b.descriptor with unpackedSize := b.size, packedSize := b.size }, b.bytes)) := by
  cases compressed with
  | false =>
      refine Or.inl ⟨rfl, ?_⟩
      cases hd : b.damage <;> simp [store, hd, size, Descriptor.isPacked]
  | true =>
      cases hd : b.damage with
      | some damage =>
          exact Or.inr (Or.inl ⟨rfl, ⟨damage, rfl⟩, by simp [store, hd, size]⟩)
      | none =>
          cases hc : b.descriptor.holdsChunks with
          | true =>
              refine Or.inr (Or.inr (Or.inl ⟨rfl, rfl, rfl, ?_⟩))
              simp [store, hd, hc, size, Descriptor.isPacked]
          | false =>
              refine Or.inr (Or.inr (Or.inr ⟨rfl, rfl, rfl, ?_⟩))
              simp [store, hd, hc, size, Descriptor.isPacked]

/-- Storing keeps the usage and the reserved bytes of the descriptor. -/
theorem store_keeps (codec : Codec) (level : Nat) (compressed : Bool) (b : Block) :
    (b.store codec level compressed).1.usage = b.descriptor.usage
      ∧ (b.store codec level compressed).1.reserved = b.descriptor.reserved := by
  rcases store_cases codec level compressed b with
    ⟨-, h⟩ | ⟨-, -, h⟩ | ⟨-, -, -, h⟩ | ⟨-, -, -, h⟩ <;> rw [h] <;> exact ⟨rfl, rfl⟩

/-- **The size field that is filled is the one that is read**, be the block packed, plain or
damaged. -/
theorem storedSize_store (codec : Codec) (level : Nat) (compressed : Bool) (b : Block) :
    (b.store codec level compressed).1.storedSize compressed
      = UInt32.ofNat (b.store codec level compressed).2.length := by
  rcases store_cases codec level compressed b with
    ⟨rfl, h⟩ | ⟨rfl, -, h⟩ | ⟨rfl, -, -, h⟩ | ⟨rfl, -, -, h⟩ <;> rw [h] <;> rfl

/-- What is found where a block has been stored at `offset`: the same bytes, and in a compressed
archive the same damage. -/
def reopened (codec : Codec) (level : Nat) (compressed : Bool) (offset : UInt32) (b : Block) :
    Block where
  descriptor := { (b.store codec level compressed).1 with offset }
  bytes := b.bytes
  damage := if compressed then b.damage else none

theorem ofStored_store {b : Block} (hs : b.Sound codec) (offset : UInt32) :
    ofStored codec compressed { (b.store codec level compressed).1 with offset }
        (b.store codec level compressed).2
      = b.reopened codec level compressed offset := by
  have hsize : b.size.toNat = b.bytes.length := UInt32.toNat_ofNat_of_lt' hs.fits
  unfold reopened ofStored
  rcases store_cases codec level compressed b with
    ⟨rfl, h⟩ | ⟨rfl, ⟨damage, hd⟩, h⟩ | ⟨rfl, hd, hc, h⟩ | ⟨rfl, hd, hc, h⟩
  · rw [h]
    rfl
  · obtain ⟨hc, hunpack⟩ := hs.damaged damage hd
    have hc : b.descriptor.usage = 0 := by simpa [Descriptor.holdsChunks] using hc
    rw [h, hd]
    simp [Descriptor.isPacked, Descriptor.holdsChunks, hc, hunpack]
  · have hc : b.descriptor.usage = 0 := by simpa [Descriptor.holdsChunks] using hc
    have hunpack := codec.unpackBlock_pack level b.bytes
    rw [← hsize] at hunpack
    rw [h, hd]
    simp [Descriptor.isPacked, Descriptor.holdsChunks, hc, hunpack]
  · have hc : b.descriptor.usage ≠ 0 := by simpa [Descriptor.holdsChunks] using hc
    rw [h, hd]
    simp [Descriptor.isPacked, Descriptor.holdsChunks, hc]

/-- A block that has been found again is stored as it was. -/
theorem store_reopened (b : Block) (offset : UInt32) :
    (b.reopened codec level compressed offset).store codec level compressed
      = ({ (b.store codec level compressed).1 with offset }, (b.store codec level compressed).2) := by
  unfold reopened
  rcases store_cases codec level compressed b with
    ⟨rfl, h⟩ | ⟨rfl, ⟨damage, hd⟩, h⟩ | ⟨rfl, hd, hc, h⟩ | ⟨rfl, hd, hc, h⟩
  · rw [h]
    rfl
  · rw [h, hd]
    rfl
  · have hc : b.descriptor.usage = 0 := by simpa [Descriptor.holdsChunks] using hc
    rw [h, hd]
    simp [store, size, Descriptor.isPacked, Descriptor.holdsChunks, hc]
  · have hc : b.descriptor.usage ≠ 0 := by simpa [Descriptor.holdsChunks] using hc
    rw [h, hd]
    simp [store, size, Descriptor.isPacked, Descriptor.holdsChunks, hc]

end Block

/-! ## The stored blocks in the data file -/

/-- The descriptor gives the stored bytes a place in the data file, and nothing else is changed. -/
def Places (data : Bytes) (stored : Descriptor × Bytes) (d : Descriptor) : Prop :=
  d = { stored.1 with offset := d.offset }
    ∧ Bytes.slice? data d.offset.toNat (d.offset.toNat + stored.2.length) = some stored.2

/-- The stored blocks lie one after the other. -/
theorem assignOffsets_places {index : Nat} {before : Bytes} {stored : List (Descriptor × Bytes)}
    {ds : List Descriptor} (h : assignOffsets index before.length stored = .ok ds) :
    List.Forall₂ (Places (before ++ stored.flatMap Prod.snd)) stored ds := by
  induction stored generalizing index before ds with
  | nil =>
      cases h
      exact List.Forall₂.nil
  | cons s stored ih =>
      rw [assignOffsets] at h
      split at h
      · next hlt =>
          obtain ⟨others, hothers, h⟩ := Outcome.bind_eq_ok.mp h
          obtain rfl := Outcome.pure_eq_ok.mp h
          have hoffset : (UInt32.ofNat before.length).toNat = before.length :=
            UInt32.toNat_ofNat_of_lt' hlt
          have hdata : before ++ (s :: stored).flatMap Prod.snd
              = before ++ s.2 ++ stored.flatMap Prod.snd := by
            rw [List.flatMap_cons, List.append_assoc]
          rw [hdata]
          rw [← List.length_append] at hothers
          refine List.Forall₂.cons ⟨rfl, ?_⟩ (ih hothers)
          show Bytes.slice? _ (UInt32.ofNat before.length).toNat _ = _
          rw [hoffset]
          exact Bytes.slice?_middle _ _ _
      · cases h

/-- The first block lies at the front. -/
theorem places_of_assignOffsets {stored : List (Descriptor × Bytes)} {ds : List Descriptor}
    (h : assignOffsets 0 0 stored = .ok ds) :
    List.Forall₂ (Places (stored.flatMap Prod.snd)) stored ds := by
  rw [← List.nil_append (stored.flatMap Prod.snd)]
  exact assignOffsets_places h

/-- Blocks that end below 4 GiB can all be given a place. -/
theorem assignOffsets_isOk {index offset : Nat} {stored : List (Descriptor × Bytes)}
    (h : offset + (stored.flatMap Prod.snd).length < 2 ^ 32) :
    ∃ ds, assignOffsets index offset stored = .ok ds := by
  induction stored generalizing index offset with
  | nil => exact ⟨[], rfl⟩
  | cons s stored ih =>
      rw [List.flatMap_cons, List.length_append] at h
      have hrest : offset + s.2.length + (stored.flatMap Prod.snd).length < 2 ^ 32 := by omega
      obtain ⟨others, hothers⟩ :
          ∃ ds, assignOffsets (index + 1) (offset + s.2.length) stored = .ok ds :=
        ih hrest
      refine ⟨{ s.1 with offset := UInt32.ofNat offset } :: others, ?_⟩
      rw [assignOffsets, if_pos (by omega)]
      exact Outcome.bind_eq_ok.mpr ⟨others, hothers, rfl⟩

/-- The offsets that the descriptors had before play no part. -/
theorem assignOffsets_congr {index offset : Nat} {stored stored' : List (Descriptor × Bytes)}
    (h : List.Forall₂ (fun s s' => (∃ o, s'.1 = { s.1 with offset := o }) ∧ s'.2 = s.2)
      stored stored') :
    assignOffsets index offset stored' = assignOffsets index offset stored := by
  induction h generalizing index offset with
  | nil => rfl
  | cons hs _ ih =>
      obtain ⟨⟨o, hd⟩, hbytes⟩ := hs
      rw [assignOffsets, assignOffsets, hbytes, ih, hd]

/-- A stored block is found at its place, and ends where the descriptor says. -/
theorem Block.slice?_of_places {codec : Codec} {level : Nat} {compressed : Bool} {data : Bytes}
    {b : Block} {d : Descriptor} (hfit : (b.store codec level compressed).2.length < 2 ^ 32)
    (h : Places data (b.store codec level compressed) d) :
    Bytes.slice? data d.offset.toNat (d.stop compressed)
      = some (b.store codec level compressed).2 := by
  obtain ⟨hd, hslice⟩ := h
  have hsize : (d.storedSize compressed).toNat = (b.store codec level compressed).2.length := by
    rw [hd, ← UInt32.toNat_ofNat_of_lt' hfit, ← storedSize_store]
    rfl
  rwa [Descriptor.stop, hsize]

/-- A block is read from the range that its descriptor gives. -/
theorem Block.load_of_slice? {codec : Codec} {compressed : Bool} {data part : Bytes}
    {d : Descriptor} (h : Bytes.slice? data d.offset.toNat (d.stop compressed) = some part) :
    load codec compressed data d = ofStored codec compressed d part := by
  unfold Bytes.slice? at h
  split at h
  · rw [Descriptor.stop, Nat.add_sub_cancel_left] at h
    rw [load_eq, Option.some.inj h]
  · cases h

/-- A stored block is loaded from its place. -/
theorem Block.load_of_places {codec : Codec} {level : Nat} {compressed : Bool} {data : Bytes}
    {b : Block} {d : Descriptor} (hs : b.Sound codec)
    (hfit : (b.store codec level compressed).2.length < 2 ^ 32)
    (h : Places data (b.store codec level compressed) d) :
    load codec compressed data d = b.reopened codec level compressed d.offset
      ∧ d.stop compressed ≤ data.length := by
  have hslice := slice?_of_places hfit h
  refine ⟨?_, (Bytes.slice?_bounds hslice).2⟩
  rw [load_of_slice? hslice, ← ofStored_store hs d.offset, ← h.1]

/-! ## Loading and saving, step by step -/

theorem Dictionary.checkBounds_eq_ok {d : Dictionary} {n : Nat} :
    d.checkBounds n = .ok () ↔ ∀ b ∈ d.blocks, b.stop d.isCompressed ≤ n := by
  unfold checkBounds
  constructor
  · intro h b hb
    split at h
    · cases h
    · next hnone =>
        obtain ⟨i, hi⟩ := List.mem_iff_getElem?.mp hb
        have hin := List.find?_eq_none.mp hnone (b, i) (List.mk_mem_zipIdx_iff_getElem?.mpr hi)
        simpa using hin
  · intro h
    have hnone : d.blocks.zipIdx.find? (fun x => decide (n < x.1.stop d.isCompressed)) = none := by
      refine List.find?_eq_none.mpr ?_
      rintro ⟨b, i⟩ hb
      have hle := h b (List.fst_mem_of_mem_zipIdx hb)
      simpa using hle
    split
    · next hsome =>
        rw [hnone] at hsome
        cases hsome
    · rfl

namespace Archive

variable {codec : Codec} {level : Nat}

/-- The faults say of every block, by its number, what damage it has. -/
theorem faults_eq (a : Archive) :
    a.faults = (a.blocks.map Block.damage).zipIdx.filterMap
      fun (damage, index) => damage.map fun d => (index, d) := by
  rw [faults, List.zipIdx_map, List.filterMap_map]
  rfl

theorem faults_eq_nil {a : Archive} : a.faults = [] ↔ ∀ b ∈ a.blocks, b.damage = none := by
  rw [faults, List.filterMap_eq_nil_iff]
  constructor
  · intro h b hb
    obtain ⟨i, hi⟩ := List.mem_iff_getElem?.mp hb
    simpa using h (b, i) (List.mk_mem_zipIdx_iff_getElem?.mpr hi)
  · rintro h ⟨b, i⟩ hb
    show b.damage.map _ = none
    rw [h b (List.fst_mem_of_mem_zipIdx hb)]
    rfl

/-- What it takes for an archive to be loaded. -/
theorem load_eq_ok {strict : Bool} {pair : FilePair} {a : Archive} :
    load codec strict pair = .ok a ↔
      ∃ d, Dictionary.load pair.dictionary = .ok d ∧ d.checkBounds pair.data.length = .ok ()
        ∧ a.frame = d.toFrame ∧ a.blocks = d.blocks.map (Block.load codec d.isCompressed pair.data)
        ∧ (strict = true → a.faults = [])
        ∧ readForest (a.blocks.map Block.bytes) = .ok a.forest := by
  unfold load
  simp only [Outcome.bind_eq_ok]
  constructor
  · rintro ⟨d, hd, ⟨⟩, hbounds, h⟩
    split at h
    · cases h
    · next hnot =>
        obtain ⟨forest, hforest, h⟩ := Outcome.bind_eq_ok.mp h
        obtain rfl := Outcome.pure_eq_ok.mp h
        refine ⟨d, hd, hbounds, rfl, rfl, fun hs => ?_, hforest⟩
        -- with a first fault the other branch would have been taken
        show Archive.faults ⟨d.toFrame, _, ⟨[]⟩⟩ = []
        cases hfaults : Archive.faults ⟨d.toFrame, _, ⟨[]⟩⟩ with
        | nil => rfl
        | cons fault others => exact (hnot fault.1 fault.2 others hs hfaults).elim
  · rintro ⟨d, hd, hbounds, hframe, hblocks, hfaults, hforest⟩
    refine ⟨d, hd, (), hbounds, ?_⟩
    obtain ⟨frame, blocks, forest⟩ := a
    obtain rfl : frame = d.toFrame := hframe
    obtain rfl : blocks = _ := hblocks
    split
    · next index damage others hcons =>
        have hnil := hfaults rfl
        rw [faults] at hcons hnil
        rw [hnil] at hcons
        cases hcons
    · exact Outcome.bind_eq_ok.mpr ⟨forest, hforest, rfl⟩

/-- The blocks as they are stored, each with its descriptor but for the offset. -/
def stored (codec : Codec) (level : Nat) (a : Archive) : List (Descriptor × Bytes) :=
  a.blocks.map (Block.store codec (min level Codec.maxLevel) a.isCompressed)

theorem save_eq_ok {a : Archive} {saved : FilePair} :
    a.save codec level = .ok saved ↔
      ∃ ds, assignOffsets 0 0 (a.stored codec level) = .ok ds
        ∧ Dictionary.save { a.frame with blocks := ds } = .ok saved.dictionary
        ∧ saved.data = (a.stored codec level).flatMap Prod.snd := by
  unfold save
  simp only [Outcome.bind_eq_ok]
  constructor
  · rintro ⟨ds, hds, bytes, hbytes, h⟩
    obtain rfl := Outcome.pure_eq_ok.mp h
    exact ⟨ds, hds, hbytes, rfl⟩
  · rintro ⟨ds, hds, hbytes, hdata⟩
    refine ⟨ds, hds, saved.dictionary, hbytes, ?_⟩
    obtain ⟨dictionary, data⟩ := saved
    obtain rfl : data = _ := hdata
    rfl

/-- No stored block is longer than the data file. -/
theorem length_le_of_mem_stored {a : Archive} {s : Descriptor × Bytes}
    (h : s ∈ a.stored codec level) :
    s.2.length ≤ ((a.stored codec level).flatMap Prod.snd).length := by
  rw [List.flatMap_def]
  exact (List.sublist_flatten_of_mem (List.mem_map_of_mem h)).length_le

/-! ## Sound archives -/

/-- An archive with sound blocks, names that can be written and the forest that its blocks hold. -/
structure Sound (codec : Codec) (a : Archive) : Prop where
  blocks : ∀ b ∈ a.blocks, b.Sound codec
  names : ∀ name ∈ a.frame.names, 0 ∉ Utf8.encode name
  forest : readForest (a.blocks.map Block.bytes) = .ok a.forest

/-- Every archive that is loaded is sound. -/
theorem sound_of_load {strict : Bool} {pair : FilePair} {a : Archive}
    (h : load codec strict pair = .ok a) : a.Sound codec := by
  obtain ⟨d, hd, -, hframe, hblocks, -, hforest⟩ := load_eq_ok.mp h
  refine ⟨fun b hb => ?_, ?_, hforest⟩
  · rw [hblocks] at hb
    obtain ⟨descriptor, -, rfl⟩ := List.mem_map.mp hb
    exact Block.sound_load codec _ _ descriptor
  · rw [hframe]
    exact (Dictionary.savable_of_load hd).2

/-- Blocks without damage are sound as long as their lengths fit. -/
theorem sound_of_faults_eq_nil {a : Archive} (hfaults : a.faults = [])
    (hblocks : ∀ b ∈ a.blocks, b.bytes.length < 2 ^ 32) : ∀ b ∈ a.blocks, b.Sound codec := by
  refine fun b hb => ⟨hblocks b hb, fun damage hdamage => ?_⟩
  rw [faults_eq_nil.mp hfaults b hb] at hdamage
  cases hdamage

theorem Sound.setCompressed {a : Archive} (h : a.Sound codec) (compressed : Bool) :
    (a.setCompressed compressed).Sound codec :=
  ⟨h.blocks, h.names, h.forest⟩

/-- An archive that is loaded from a plain data file has no faults. -/
theorem faults_of_load_plain {strict : Bool} {pair : FilePair} {a : Archive}
    (h : load codec strict pair = .ok a) (hplain : a.isCompressed = false) : a.faults = [] := by
  obtain ⟨d, -, -, hframe, hblocks, -, -⟩ := load_eq_ok.mp h
  have hd : d.isCompressed = false := by
    rw [← hplain, isCompressed, hframe]
  rw [faults_eq_nil, hblocks, hd]
  intro b hb
  obtain ⟨descriptor, -, rfl⟩ := List.mem_map.mp hb
  exact Block.damage_load_plain codec pair.data descriptor

/-! ## The archive that is opened again -/

/-- What `b` is when it has been opened from the files that `a` was saved to. -/
structure Reopened (codec : Codec) (level : Nat) (a b : Archive) : Prop where
  frame : b.frame = a.frame
  forest : b.forest = a.forest
  blocks : List.Forall₂ (fun x y => ∃ offset,
    y = Block.reopened codec (min level Codec.maxLevel) a.isCompressed offset x) a.blocks b.blocks

namespace Reopened

variable {a b : Archive}

theorem isCompressed (h : Reopened codec level a b) : b.isCompressed = a.isCompressed :=
  congrArg Frame.isCompressed h.frame

theorem bytes (h : Reopened codec level a b) :
    b.blocks.map Block.bytes = a.blocks.map Block.bytes := by
  refine map_eq_of_forall₂ h.blocks ?_
  rintro x y ⟨offset, rfl⟩
  rfl

theorem marks (h : Reopened codec level a b) :
    b.blocks.map (fun x => (x.descriptor.usage, x.descriptor.reserved))
      = a.blocks.map fun x => (x.descriptor.usage, x.descriptor.reserved) := by
  refine map_eq_of_forall₂ h.blocks ?_
  rintro x y ⟨offset, rfl⟩
  obtain ⟨husage, hreserved⟩ := Block.store_keeps codec (min level Codec.maxLevel) a.isCompressed x
  exact Prod.ext husage hreserved

theorem faults (h : Reopened codec level a b) :
    b.faults = if a.isCompressed then a.faults else [] := by
  cases hc : a.isCompressed with
  | true =>
      have hdamage : b.blocks.map Block.damage = a.blocks.map Block.damage := by
        refine map_eq_of_forall₂ h.blocks ?_
        rintro x y ⟨offset, rfl⟩
        rw [hc]
        rfl
      rw [faults_eq, hdamage, ← faults_eq]
      rfl
  | false =>
      refine faults_eq_nil.mpr (forall_of_forall₂ h.blocks ?_)
      rintro x y ⟨offset, rfl⟩
      rw [hc]
      rfl

/-- Saving once more gives the same files. -/
theorem save {saved : FilePair} (h : Reopened codec level a b)
    (hsave : a.save codec level = .ok saved) : b.save codec level = .ok saved := by
  have hstored : List.Forall₂ (fun s s' : Descriptor × Bytes =>
      (∃ o, s'.1 = { s.1 with offset := o }) ∧ s'.2 = s.2)
      (a.stored codec level) (b.stored codec level) := by
    rw [stored, stored, List.forall₂_map_left_iff, List.forall₂_map_right_iff, h.isCompressed]
    refine h.blocks.imp ?_
    rintro x y ⟨offset, rfl⟩
    rw [Block.store_reopened]
    exact ⟨⟨offset, rfl⟩, rfl⟩
  have hdata : (b.stored codec level).flatMap Prod.snd = (a.stored codec level).flatMap Prod.snd := by
    rw [List.flatMap_def, List.flatMap_def, map_eq_of_forall₂ hstored fun _ _ hs => hs.2]
  obtain ⟨ds, hds, hdictionary, hbytes⟩ := save_eq_ok.mp hsave
  refine save_eq_ok.mpr ⟨ds, ?_, ?_, ?_⟩
  · rw [assignOffsets_congr hstored, hds]
  · rw [h.frame, hdictionary]
  · rw [hdata, hbytes]

end Reopened

/-- Every descriptor of a saved archive leads to its block. -/
theorem load_of_assignOffsets {a : Archive} {ds : List Descriptor}
    (hsound : ∀ b ∈ a.blocks, b.Sound codec)
    (hfit : ∀ s ∈ a.stored codec level, s.2.length < 2 ^ 32)
    (h : assignOffsets 0 0 (a.stored codec level) = .ok ds) :
    let data := (a.stored codec level).flatMap Prod.snd
    List.Forall₂ (fun x d => Block.load codec a.isCompressed data d
        = Block.reopened codec (min level Codec.maxLevel) a.isCompressed d.offset x
      ∧ d.stop a.isCompressed ≤ data.length) a.blocks ds := by
  intro data
  have hplaces : List.Forall₂ (Places data) (a.stored codec level) ds := places_of_assignOffsets h
  rw [stored, List.forall₂_map_left_iff] at hplaces
  have hall : ∀ x ∈ a.blocks, x.Sound codec ∧
      (x.store codec (min level Codec.maxLevel) a.isCompressed).2.length < 2 ^ 32 := fun x hx =>
    ⟨hsound x hx, hfit _ (List.mem_map_of_mem hx)⟩
  refine ((List.forall₂_and_left _ _).mpr ⟨hall, hplaces⟩).imp ?_
  rintro x d ⟨⟨hsound, hlen⟩, hplace⟩
  exact Block.load_of_places hsound hlen hplace

/-- What is found in the files that an archive was saved to: its frame and its blocks, and the
forest that the blocks hold, whether or not this is the forest of the archive. -/
theorem load_saved_eq_ok {a : Archive} {saved : FilePair} (hsound : ∀ b ∈ a.blocks, b.Sound codec)
    (hnames : ∀ name ∈ a.frame.names, 0 ∉ Utf8.encode name)
    (hfit : ∀ s ∈ a.stored codec level, s.2.length < 2 ^ 32)
    (h : a.save codec level = .ok saved) :
    ∃ b, Reopened codec level a b ∧ ∀ strict c, load codec strict saved = .ok c ↔
      c.frame = b.frame ∧ c.blocks = b.blocks ∧ (strict = true → c.faults = [])
        ∧ readForest (a.blocks.map Block.bytes) = .ok c.forest := by
  obtain ⟨ds, hds, hdictionary, hdata⟩ := save_eq_ok.mp h
  have hloaded := load_of_assignOffsets hsound hfit hds
  simp only [← hdata] at hloaded
  have hload := Dictionary.load_save (d := { a.frame with blocks := ds }) hnames hdictionary
  have hbounds : Dictionary.checkBounds { a.frame with blocks := ds } saved.data.length = .ok () :=
    Dictionary.checkBounds_eq_ok.mpr fun d hd => forall_of_forall₂ hloaded (fun _ _ hx => hx.2) d hd
  let b : Archive := ⟨a.frame, ds.map (Block.load codec a.isCompressed saved.data), a.forest⟩
  have hb : Reopened codec level a b := by
    refine ⟨rfl, rfl, ?_⟩
    show List.Forall₂ _ a.blocks (ds.map _)
    rw [List.forall₂_map_right_iff]
    refine hloaded.imp ?_
    rintro x d ⟨hx, -⟩
    exact ⟨d.offset, hx⟩
  refine ⟨b, hb, fun strict c => load_eq_ok.trans ⟨?_, ?_⟩⟩
  · rintro ⟨d, hd, -, hframe, hblocks, hstrict, hforest⟩
    rw [hload, Except.ok.injEq] at hd
    subst hd
    have hblocks : c.blocks = b.blocks := hblocks
    rw [hblocks, hb.bytes] at hforest
    exact ⟨hframe, hblocks, hstrict, hforest⟩
  · rintro ⟨hframe, hblocks, hstrict, hforest⟩
    refine ⟨_, hload, hbounds, hframe, hblocks, hstrict, ?_⟩
    rw [hblocks, hb.bytes]
    exact hforest

/-- **A sound archive that is saved is opened again**, leniently always, strictly where nothing is
damaged. -/
theorem load_save {a : Archive} {saved : FilePair} (hs : a.Sound codec)
    (hfit : ∀ s ∈ a.stored codec level, s.2.length < 2 ^ 32)
    (h : a.save codec level = .ok saved) :
    ∃ b, Reopened codec level a b
      ∧ ∀ strict, (strict = true → b.faults = []) → load codec strict saved = .ok b := by
  obtain ⟨b, hb, hload⟩ := load_saved_eq_ok hs.blocks hs.names hfit h
  refine ⟨b, hb, fun strict hstrict => (hload strict b).mpr ⟨rfl, rfl, hstrict, ?_⟩⟩
  rw [hb.forest]
  exact hs.forest

/-- **What has been loaded survives saving and loading in either mode of storage**: every byte of
every block, the forest and all that the dictionary says besides places and sizes. In the mode in
which it was loaded the faults are found again as well, and saving once more gives the same files.
-/
theorem load_save_setCompressed {compressed : Bool} {pair saved : FilePair} {a : Archive}
    (hload : load codec false pair = .ok a)
    (hsave : (a.setCompressed compressed).save codec level = .ok saved)
    (hfit : ∀ s ∈ (a.setCompressed compressed).stored codec level, s.2.length < 2 ^ 32) :
    ∃ b, load codec false saved = .ok b
      ∧ b.blocks.map Block.bytes = a.blocks.map Block.bytes
      ∧ b.forest = a.forest
      ∧ b.frame = { a.frame with isCompressed := compressed }
      ∧ b.blocks.map (fun x => (x.descriptor.usage, x.descriptor.reserved))
          = a.blocks.map (fun x => (x.descriptor.usage, x.descriptor.reserved))
      ∧ (compressed = a.isCompressed → b.faults = a.faults)
      ∧ b.save codec level = .ok saved := by
  have hsound := (sound_of_load hload).setCompressed compressed
  obtain ⟨b, hb, hopen⟩ := load_save hsound hfit hsave
  refine ⟨b, hopen false (by simp), hb.bytes, hb.forest, hb.frame, hb.marks, ?_, hb.save hsave⟩
  rintro rfl
  rw [hb.faults]
  cases hc : a.isCompressed with
  | true =>
      show (if (a.setCompressed true).isCompressed then _ else _) = a.faults
      rfl
  | false => exact (faults_of_load_plain hload hc).symm

/-- A compressed archive of three blocks, of which one is packed, one plain and one damaged. -/
theorem load_save_setCompressed_mixed :
    let forest : Forest := ⟨[.ofPayload 5 0 1 [7, 8]]⟩
    let pair : FilePair := ⟨
      [0x58, 0x24, 0xF3, 0xA9, 1, 0, 1, 0, 12, 0, 0, 0, 3, 0, 1, 0,
        0, 0, 0, 0, 12, 0, 0, 0, 17, 0, 0, 0, 1, 2, 0, 3,
        17, 0, 0, 0, 3, 0, 0, 0, 3, 0, 0, 0, 0, 0, 1, 0,
        20, 0, 0, 0, 5, 0, 0, 0, 1, 0, 0, 0, 0, 0, 0, 0, 0x6E, 0, 9],
      [1, 12, 0, 0xF3, 0xFF, 5, 0, 0, 0, 1, 0, 0, 0, 2, 0, 0, 0, 6, 7, 8, 0xFF]⟩
    let a : Archive := ⟨{ isCompressed := true, names := ["n"], trailer := [9] },
      [⟨⟨0, 12, 17, 0, (1, 2, 3)⟩, forest.table, none⟩, ⟨⟨17, 3, 3, 1, (0, 0, 0)⟩, [6, 7, 8], none⟩,
        ⟨⟨20, 5, 1, 0, (0, 0, 0)⟩, [0xFF], some .corrupt⟩], forest⟩
    load Codec.deflate false pair = .ok a
      ∧ (a.setCompressed true).save Codec.deflate 0 = .ok pair
      ∧ (∀ s ∈ (a.setCompressed true).stored Codec.deflate 0, s.2.length < 2 ^ 32)
      ∧ ∃ b, load Codec.deflate false pair = .ok b ∧ b.faults = a.faults := by
  intro forest pair a
  have hload : load Codec.deflate false pair = .ok a := by decide +kernel
  have hsave : (a.setCompressed true).save Codec.deflate 0 = .ok pair := by decide +kernel
  have hfit : ∀ s ∈ (a.setCompressed true).stored Codec.deflate 0, s.2.length < 2 ^ 32 := by
    decide +kernel
  obtain ⟨b, hb, -, -, -, -, hfaults, -⟩ := load_save_setCompressed hload hsave hfit
  exact ⟨hload, hsave, hfit, b, hb, hfaults rfl⟩

end Archive

end ChunkArchive
