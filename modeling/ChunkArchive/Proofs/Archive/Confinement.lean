import ChunkArchive.Proofs.Archive.Changes
import Mathlib.Order.Interval.Finset.Nat

/-!
# How far a damaged block reaches

Bytes of a data file change in the place of one data block. All other blocks are loaded as they
were, and so is the table with all headers of the forest. What the damage can do beyond its block
is to leave a leaf outside: a block that cannot be unpacked holds its stored bytes, of which there
may be fewer. The archive is loaded exactly if every leaf of that block still lies within it
(`Archive.load_changed_block`).
-/

set_option autoImplicit false

namespace ChunkArchive

/-! ## Blocks and their places -/

/-- The positions that the bytes of a block have in the data file. -/
def Descriptor.range (d : Descriptor) (compressed : Bool) : Finset Nat :=
  Finset.Ico d.offset.toNat (d.stop compressed)

namespace Block

variable {codec : Codec} {compressed : Bool} {data data' : Bytes} {d : Descriptor}

@[simp] theorem descriptor_load (codec : Codec) (compressed : Bool) (data : Bytes)
    (d : Descriptor) : (load codec compressed data d).descriptor = d := by
  unfold load
  simp only
  split
  · split <;> rfl
  · rfl

/-- A block is loaded from its own place in the data file. -/
theorem load_congr (h : ∀ i ∈ d.range compressed, data'[i]? = data[i]?) :
    load codec compressed data' d = load codec compressed data d := by
  rw [load_eq, load_eq, Bytes.take_drop_congr]
  exact fun i hle hlt => h i (Finset.mem_Ico.mpr ⟨hle, hlt⟩)

/-- The descriptor says how long a block is that is not damaged. -/
theorem length_load (hstop : d.stop compressed ≤ data.length)
    (hsound : (load codec compressed data d).damage = none) :
    (load codec compressed data d).bytes.length
      = if d.isPacked compressed then d.unpackedSize.toNat
        else (d.storedSize compressed).toNat := by
  have hstored : ((data.drop d.offset.toNat).take (d.storedSize compressed).toNat).length
      = (d.storedSize compressed).toNat := by
    rw [Descriptor.stop] at hstop
    rw [List.length_take, List.length_drop]
    omega
  rw [load_eq, ofStored] at hsound ⊢
  by_cases hpacked : d.isPacked compressed
  · rw [if_pos hpacked] at hsound ⊢
    rw [if_pos hpacked]
    split at hsound
    · next bytes hbytes => exact Codec.length_of_unpackBlock hbytes
    · cases hsound
  · rw [if_neg hpacked, if_neg hpacked]
    exact hstored

end Block

namespace Archive

/-- No two blocks have a byte of the data file in common. -/
def BlocksApart (a : Archive) : Prop :=
  a.blocks.Pairwise fun x y =>
    Disjoint (x.descriptor.range a.isCompressed) (y.descriptor.range a.isCompressed)

instance (a : Archive) : Decidable a.BlocksApart :=
  inferInstanceAs (Decidable (List.Pairwise _ _))

variable {codec : Codec} {a : Archive} {d : Dictionary} {data data' : Bytes} {k : Nat} {x : Block}

/-- Only the block is loaded anew in whose place the data file has changed. -/
theorem blocks_of_changed (hblocks : a.blocks = d.blocks.map (Block.load codec a.isCompressed data))
    (hapart : a.BlocksApart) (hx : a.blocks[k]? = some x)
    (hsame : ∀ i ∉ x.descriptor.range a.isCompressed, data'[i]? = data[i]?) :
    d.blocks.map (Block.load codec a.isCompressed data')
      = a.blocks.set k (Block.load codec a.isCompressed data' x.descriptor) := by
  have hlt := (List.getElem?_eq_some_iff.mp hx).1
  apply List.ext_getElem?
  intro i
  rw [List.getElem?_map, List.getElem?_set]
  by_cases hi : k = i
  · subst hi
    rw [hblocks, List.getElem?_map, Option.map_eq_some_iff] at hx
    obtain ⟨e, he, rfl⟩ := hx
    rw [if_pos rfl, if_pos hlt, he, Block.descriptor_load]
    rfl
  · rw [if_neg hi]
    cases he : d.blocks[i]? with
    | none => rw [hblocks, List.getElem?_map, he]; rfl
    | some e =>
        have hother : a.blocks[i]? = some (Block.load codec a.isCompressed data e) := by
          rw [hblocks, List.getElem?_map, he, Option.map_some]
        have hdisjoint := pairwise_getElem? hapart (fun _ _ h => h.symm) hother hx (Ne.symm hi)
        rw [Block.descriptor_load, Finset.disjoint_left] at hdisjoint
        rw [hother, Option.map_some, Block.load_congr fun j hj => hsame j (hdisjoint hj)]

end Archive

/-! ## The forest -/

theorem Bytes.padTo_drop_of_slice? {bytes part : Bytes} {start stop : Nat}
    (h : slice? bytes start stop = some part) : padTo part.length (bytes.drop start) = part := by
  obtain ⟨before, behind, rfl, rfl, -⟩ := slice?_eq_some_iff.mp h
  rw [List.append_assoc, List.drop_left, padTo, List.take_left, List.length_append,
    Nat.sub_eq_zero_of_le (Nat.le_add_right _ _)]
  exact List.append_nil part

namespace Forest

variable {forest : Forest} {blocks : List Bytes} {index : Nat} {bytes : Bytes}

/-- The forest with the given bytes in the place of one of its data blocks. -/
def withBlock (forest : Forest) (index : Nat) (bytes : Bytes) : Forest :=
  forest.map Node.header fun h x =>
    if h.blockIndex = index then Bytes.padTo x.length (bytes.drop h.offset.toNat) else x

/-- Payloads of the other blocks are read as they are. -/
theorem reread_set (hindex : index < blocks.length)
    (hbacked : ∀ e ∈ forest.walk, e.2.Backed blocks) :
    forest.reread (blocks.set index bytes) = forest.withBlock index bytes := by
  refine map_congr fun path h x hleaf => ?_
  obtain ⟨block, hblock, hslice⟩ := Node.backed_leaf_iff.mp (hbacked _ (mem_walk.mpr hleaf))
  by_cases hi : h.blockIndex = index
  · rw [if_pos hi, hi, List.getElem?_set_self hindex, Option.getD_some]
  · rw [if_neg hi, List.getElem?_set_ne (Ne.symm hi), hblock, Option.getD_some,
      Bytes.padTo_drop_of_slice? hslice]

/-- With another data block it is the leaves of this block that have to lie within. -/
theorem within_set (hindex : index < blocks.length)
    (hwithin : ∀ e ∈ forest.walk, e.2.Within blocks) :
    (∀ e ∈ forest.walk, e.2.Within (blocks.set index bytes)) ↔
      ∀ q h x, forest.get? q = some (.leaf h x) → h.blockIndex = index → h.stop ≤ bytes.length := by
  constructor
  · rintro hall q h x hq rfl
    obtain ⟨block, hblock, hstop⟩ := hall _ (mem_walk.mpr hq)
    rw [List.getElem?_set_self hindex, Option.some.injEq] at hblock
    rwa [hblock]
  · rintro hstops ⟨q, node⟩ hmem
    cases node with
    | branch h cs => exact trivial
    | leaf h x =>
        by_cases hi : h.blockIndex = index
        · refine ⟨bytes, ?_, hstops q h x (mem_walk.mp hmem) hi⟩
          rw [hi, List.getElem?_set_self hindex]
        · obtain ⟨block, hblock, hstop⟩ := hwithin _ hmem
          exact ⟨block, by rw [List.getElem?_set_ne (Ne.symm hi), hblock], hstop⟩

end Forest

/-! ## Loading -/

namespace Archive

variable {codec : Codec} {pair : FilePair} {a b : Archive} {data : Bytes} {k : Nat} {x : Block}

/-- What an archive reads as whose data block `k` is another one. -/
theorem readForest_set {strict : Bool} (hload : load codec strict pair = .ok a)
    (hx : a.blocks[k + 1]? = some x) (y : Block) (forest : Forest) :
    readForest ((a.blocks.set (k + 1) y).map Block.bytes) = .ok forest ↔
      (∀ q h z, a.forest.get? q = some (.leaf h z) → h.blockIndex = k → h.stop ≤ y.bytes.length)
        ∧ forest = a.forest.withBlock k y.bytes := by
  have hfits := fits_of_load hload
  have hregular : a.forest.Regular := fun e he =>
    ⟨(hfits e he).1, (hfits e he).2.1, (hfits e he).2.2.2⟩
  have hforest := (sound_of_load hload).forest
  have hlt := (List.getElem?_eq_some_iff.mp hx).1
  cases hblocks : a.blocks with
  | nil =>
      rw [hblocks] at hlt
      exact absurd hlt (Nat.not_lt_zero _)
  | cons first others =>
      rw [dataBlocks, hblocks] at hfits
      rw [hblocks] at hforest hlt
      obtain ⟨⟨padding, htable, hpadding⟩, -⟩ := Forest.parse_eq_ok.mp hforest
      have hk : k < (others.map Block.bytes).length := by
        rw [List.length_map]
        exact Nat.lt_of_succ_lt_succ hlt
      rw [List.set_cons_succ, List.map_cons, List.map_set]
      refine (hregular.parse_padded_eq_ok htable hpadding).trans ?_
      rw [Forest.within_set hk fun e he => (hfits e he).2.2.1.within,
        Forest.reread_set hk fun e he => (hfits e he).2.2.1]

/-- A block of the length that it had before leaves no leaf outside. -/
theorem stop_le_of_sound (hload : load codec true pair = .ok a) (hx : a.blocks[k + 1]? = some x)
    (hlen : data.length = pair.data.length)
    (hsound : (Block.load codec a.isCompressed data x.descriptor).damage = none) {q : Path}
    {h : Header} {z : Bytes} (hq : a.forest.get? q = some (.leaf h z)) (hblock : h.blockIndex = k) :
    h.stop ≤ (Block.load codec a.isCompressed data x.descriptor).bytes.length := by
  obtain ⟨d, -, hbounds, hframe, hblocks, hfaults, -⟩ := load_eq_ok.mp hload
  have hcompressed : d.isCompressed = a.isCompressed := congrArg Frame.isCompressed hframe.symm
  rw [hcompressed] at hblocks
  obtain ⟨e, he, rfl⟩ : ∃ e, d.blocks[k + 1]? = some e
      ∧ Block.load codec a.isCompressed pair.data e = x := by
    rwa [hblocks, List.getElem?_map, Option.map_eq_some_iff] at hx
  rw [Block.descriptor_load] at hsound ⊢
  have hstop : e.stop a.isCompressed ≤ pair.data.length := by
    rw [← hcompressed]
    exact Dictionary.checkBounds_eq_ok.mp hbounds e (List.mem_of_getElem? he)
  have hbefore := faults_eq_nil.mp (hfaults rfl) _ (List.mem_of_getElem? hx)
  rw [Block.length_load (by rwa [hlen]) hsound, ← Block.length_load hstop hbefore]
  -- the leaf lies within the block as it was
  obtain ⟨block, hfound, hle⟩ := (fits_of_load hload _ (Forest.mem_walk.mpr hq)).2.2.1.within
  rw [hblock, dataBlocks, List.getElem?_map, List.getElem?_tail, hx, Option.map_some,
    Option.some.injEq] at hfound
  rwa [hfound]

/-- The only damage is that of the block that is loaded anew. -/
theorem mem_faults_set (hload : load codec true pair = .ok a) (hx : a.blocks[k + 1]? = some x)
    {y : Block} (hblocks : b.blocks = a.blocks.set (k + 1) y) {i : Nat}
    {damage : Damage} : (i, damage) ∈ b.faults ↔ i = k + 1 ∧ y.damage = some damage := by
  have hfaults : a.faults = [] := by
    obtain ⟨d, -, -, -, -, hfaults, -⟩ := load_eq_ok.mp hload
    exact hfaults rfl
  have hlt := (List.getElem?_eq_some_iff.mp hx).1
  rw [mem_faults, hblocks]
  constructor
  · rintro ⟨z, hz, hdamage⟩
    by_cases hi : i = k + 1
    · rw [hi, List.getElem?_set_self hlt, Option.some.injEq] at hz
      exact ⟨hi, by rw [hz, hdamage]⟩
    · rw [List.getElem?_set_ne (Ne.symm hi)] at hz
      rw [faults_eq_nil.mp hfaults z (List.mem_of_getElem? hz)] at hdamage
      cases hdamage
  · rintro ⟨rfl, hdamage⟩
    exact ⟨y, List.getElem?_set_self hlt, hdamage⟩

/-- What is loaded from files that differ in the place of one data block. -/
theorem load_changed_eq_ok (hload : load codec true pair = .ok a) (hapart : a.BlocksApart)
    (hx : a.blocks[k + 1]? = some x) (hlen : data.length = pair.data.length)
    (hsame : ∀ i ∉ x.descriptor.range a.isCompressed, data[i]? = pair.data[i]?) :
    load codec false ⟨pair.dictionary, data⟩ = .ok b ↔
      (∀ q h z, a.forest.get? q = some (.leaf h z) → h.blockIndex = k →
        h.stop ≤ (Block.load codec a.isCompressed data x.descriptor).bytes.length)
      ∧ b = { a with
          blocks := a.blocks.set (k + 1) (Block.load codec a.isCompressed data x.descriptor)
          forest := a.forest.withBlock k
            (Block.load codec a.isCompressed data x.descriptor).bytes } := by
  obtain ⟨d, hd, hbounds, hframe, hblocks, -, -⟩ := load_eq_ok.mp hload
  have hcompressed : d.isCompressed = a.isCompressed := congrArg Frame.isCompressed hframe.symm
  rw [hcompressed] at hblocks
  have hchanged := blocks_of_changed hblocks hapart hx hsame
  rw [load_eq_ok]
  constructor
  · rintro ⟨d', hd', -, hframe', hblocks', -, hforest'⟩
    obtain rfl : d = d' := Except.ok.inj (hd.symm.trans hd')
    rw [hcompressed, hchanged] at hblocks'
    rw [hblocks', readForest_set hload hx] at hforest'
    refine ⟨hforest'.1, ?_⟩
    rw [← hframe] at hframe'
    rw [← hframe', ← hblocks', ← hforest'.2]
  · rintro ⟨hstops, rfl⟩
    refine ⟨d, hd, by rw [hlen]; exact hbounds, hframe, ?_, nofun, ?_⟩
    · rw [hcompressed, hchanged]
    · exact (readForest_set hload hx _ _).mpr ⟨hstops, rfl⟩

/-- **Damage in the place of one data block reaches no further than the leaves of this block.** An
archive that is loaded strictly, and whose blocks lie apart, is loaded leniently after its data file
has changed in the place of data block `k`, exactly if all leaves of this block lie within the bytes
that it has now. That is so if it can still be unpacked. The other blocks, all headers and the
payloads of all other leaves are the same, and there is no other damage. -/
theorem load_changed_block (hload : load codec true pair = .ok a) (hapart : a.BlocksApart)
    (hx : a.blocks[k + 1]? = some x) (hlen : data.length = pair.data.length)
    (hsame : ∀ i ∉ x.descriptor.range a.isCompressed, data[i]? = pair.data[i]?) :
    let y := Block.load codec a.isCompressed data x.descriptor
    (∀ b, load codec false ⟨pair.dictionary, data⟩ = .ok b ↔
        (∀ q h z, a.forest.get? q = some (.leaf h z) → h.blockIndex = k → h.stop ≤ y.bytes.length)
          ∧ b = { a with
              blocks := a.blocks.set (k + 1) y
              forest := a.forest.withBlock k y.bytes })
      ∧ (y.damage = none → ∃ b, load codec false ⟨pair.dictionary, data⟩ = .ok b)
      ∧ ∀ b, load codec false ⟨pair.dictionary, data⟩ = .ok b →
          (∀ i damage, (i, damage) ∈ b.faults ↔ i = k + 1 ∧ y.damage = some damage)
            ∧ (∀ q, (b.forest.get? q).map Node.header = (a.forest.get? q).map Node.header)
            ∧ ∀ q h z, a.forest.get? q = some (.leaf h z) → h.blockIndex ≠ k →
                b.forest.get? q = some (.leaf h z) := by
  intro y
  have hok : ∀ b, _ := fun b => load_changed_eq_ok (b := b) hload hapart hx hlen hsame
  refine ⟨hok, fun hsound => ⟨_, (hok _).mpr ⟨fun q h z hq hblock => ?_, rfl⟩⟩, fun b hb => ?_⟩
  · exact stop_le_of_sound hload hx hlen hsound hq hblock
  · obtain ⟨-, rfl⟩ := (hok b).mp hb
    refine ⟨fun i damage => mem_faults_set hload hx rfl, fun q => ?_, fun q h z hq hblock => ?_⟩
    · rw [Forest.withBlock, Forest.get?_map, Option.map_map]
      exact congrArg (Option.map · _) (funext fun n => n.header_map _ _)
    · rw [Forest.withBlock, Forest.get?_map, hq, Option.map_some, Node.map, if_neg hblock]
      rfl

/-- The first byte of a packed block changes, so that it is no longer one. Its stored bytes are
more than it had, and its leaf gets the first two of them. -/
theorem load_changed_block_longer :
    let forest (x : Bytes) : Forest := ⟨[.ofPayload 5 0 0 x, .ofPayload 6 0x1000 0 [9]]⟩
    let dictionary : Bytes :=
      [0x58, 0x24, 0xF3, 0xA9, 1, 0, 1, 0, 24, 0, 0, 0, 3, 0, 0, 0,
        0, 0, 0, 0, 24, 0, 0, 0, 24, 0, 0, 0, 0, 0, 1, 0,
        24, 0, 0, 0, 2, 0, 0, 0, 7, 0, 0, 0, 0, 0, 0, 0,
        31, 0, 0, 0, 1, 0, 0, 0, 1, 0, 0, 0, 0, 0, 1, 0]
    let data (b : UInt8) : Bytes := (forest [7, 8]).table ++ [b, 2, 0, 0xFD, 0xFF, 7, 8, 9]
    let x : Block := ⟨⟨24, 2, 7, 0, (0, 0, 0)⟩, [7, 8], none⟩
    let a : Archive := ⟨{ isCompressed := true },
      [⟨⟨0, 24, 24, 1, (0, 0, 0)⟩, (forest [7, 8]).table, none⟩, x,
        ⟨⟨31, 1, 1, 1, (0, 0, 0)⟩, [9], none⟩], forest [7, 8]⟩
    load Codec.deflate true ⟨dictionary, data 1⟩ = .ok a ∧ a.BlocksApart
      ∧ a.blocks[0 + 1]? = some x ∧ (data 7).length = (data 1).length
      ∧ (∀ i ∉ x.descriptor.range a.isCompressed, (data 7)[i]? = (data 1)[i]?)
      ∧ ∃ b, load Codec.deflate false ⟨dictionary, data 7⟩ = .ok b
        ∧ (1, .corrupt) ∈ b.faults ∧ b.forest.get? ⟨1, []⟩ = some (.ofPayload 6 0x1000 0 [9]) := by
  intro forest dictionary data x a
  have hload : load Codec.deflate true ⟨dictionary, data 1⟩ = .ok a := by decide +kernel
  have hapart : a.BlocksApart := by decide +kernel
  have hsame : ∀ i ∉ x.descriptor.range a.isCompressed, (data 7)[i]? = (data 1)[i]? := by
    intro i hi
    by_cases hlt : i < 32
    · have hall : ∀ j < 32, j ∉ x.descriptor.range a.isCompressed →
          (data 7)[j]? = (data 1)[j]? := by decide +kernel
      exact hall i hlt hi
    · have hlen : ∀ b, (data b).length = 32 := fun b => rfl
      rw [List.getElem?_eq_none (by rw [hlen]; omega), List.getElem?_eq_none (by rw [hlen]; omega)]
  have hlen : (data 7).length = (data 1).length := rfl
  have hx : a.blocks[0 + 1]? = some x := rfl
  obtain ⟨hok, -, hkept⟩ := load_changed_block hload hapart hx hlen hsame
  obtain ⟨b, hb⟩ : ∃ b, load Codec.deflate false ⟨dictionary, data 7⟩ = .ok b := by
    refine ⟨_, (hok _).mpr ⟨fun q h z hq hblock => ?_, rfl⟩⟩
    have hall : ∀ e ∈ a.forest.walk, e.2.header.stop ≤ 7 := by decide +kernel
    exact hall _ (Forest.mem_walk.mpr hq)
  obtain ⟨hfaults, -, hothers⟩ := hkept b hb
  exact ⟨hload, hapart, hx, hlen, hsame, b, hb, (hfaults 1 .corrupt).mpr ⟨rfl, by decide +kernel⟩,
    hothers ⟨1, []⟩ _ _ rfl (by decide)⟩

/-- A block of twelve equal bytes is packed into five. When these are damaged its leaf, which has
all twelve, does not lie within them. -/
theorem load_changed_block_shorter :
    let forest : Forest := ⟨[.ofPayload 5 0 0 [5, 5, 5, 5, 5, 5, 5, 5, 5, 5, 5, 5]]⟩
    let dictionary : Bytes :=
      [0x58, 0x24, 0xF3, 0xA9, 1, 0, 1, 0, 12, 0, 0, 0, 2, 0, 0, 0,
        0, 0, 0, 0, 12, 0, 0, 0, 12, 0, 0, 0, 0, 0, 1, 0,
        12, 0, 0, 0, 12, 0, 0, 0, 5, 0, 0, 0, 0, 0, 0, 0]
    let data (stored : Bytes) : Bytes := forest.table ++ stored
    let d : Descriptor := ⟨12, 12, 5, 0, (0, 0, 0)⟩
    (∃ a x, load Codec.deflate true ⟨dictionary, data [0x63, 0x65, 0x45, 0, 0]⟩ = .ok a
        ∧ a.BlocksApart ∧ a.blocks[1]? = some x ∧ x.descriptor = d
        ∧ d.isPacked a.isCompressed = true ∧ d.range a.isCompressed = Finset.Ico 12 17)
      ∧ (∀ i ∉ Finset.Ico 12 17,
          (data [0xFF, 0xFF, 0xFF, 0xFF, 0xFF])[i]? = (data [0x63, 0x65, 0x45, 0, 0])[i]?)
      ∧ load Codec.deflate false ⟨dictionary, data [0xFF, 0xFF, 0xFF, 0xFF, 0xFF]⟩
          = .error (.table 0 (.payloadOutside 0 12 0 5)) := by
  intro forest dictionary data d
  let x : Block := ⟨d, [5, 5, 5, 5, 5, 5, 5, 5, 5, 5, 5, 5], none⟩
  let a : Archive := ⟨{ isCompressed := true },
    [⟨⟨0, 12, 12, 1, (0, 0, 0)⟩, forest.table, none⟩, x], forest⟩
  refine ⟨⟨a, x, by decide +kernel, by decide +kernel, rfl, rfl, rfl, by decide +kernel⟩, ?_,
    by decide +kernel⟩
  intro i hi
  rw [Finset.mem_Ico, not_and_or, Nat.not_le, Nat.not_lt] at hi
  rcases hi with hlt | hle
  · have hlt : i < forest.table.length := hlt
    exact (List.getElem?_append_left hlt).trans (List.getElem?_append_left hlt).symm
  · exact (List.getElem?_eq_none hle).trans (List.getElem?_eq_none hle).symm

end Archive

end ChunkArchive
