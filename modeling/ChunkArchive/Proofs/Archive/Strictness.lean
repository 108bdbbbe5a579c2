import ChunkArchive.Proofs.Archive.Damage

/-!
# Strict and lenient opening

Whether an archive is opened strictly makes a difference only where a block can not be unpacked, and
then the first such block is the one that is reported, whatever else is wrong behind it
(`Archive.load_strict`). Damage is looked for before the table is read, but not before the
dictionary is known to fit the data file.
-/

set_option autoImplicit false

namespace ChunkArchive

/-- The dictionary can be read and fits the data file, and the block of that number is a packed one
that can not be unpacked. -/
def FilePair.Fails (codec : Codec) (pair : FilePair) (index : Nat) (damage : Damage) : Prop :=
  ∃ d e stored, Dictionary.load pair.dictionary = .ok d
    ∧ d.checkBounds pair.data.length = .ok () ∧ d.blocks[index]? = some e
    ∧ e.isPacked d.isCompressed = true ∧ pair.stored? index = some stored
    ∧ codec.unpackBlock stored e.unpackedSize.toNat = .error damage

namespace Archive

variable {codec : Codec} {pair : FilePair} {d : Dictionary}

/-! ## Faults -/

/-- Faults are in the order of the blocks. -/
theorem faults_sorted (a : Archive) : a.faults.Pairwise fun x y => x.1 < y.1 := by
  rw [faults, List.pairwise_filterMap]
  have hindices : a.blocks.zipIdx.Pairwise fun x y => x.2 < y.2 := by
    have hrange : (List.range' 0 a.blocks.length).Pairwise (· < ·) := List.pairwise_lt_range'
    rw [← List.zipIdx_map_snd] at hrange
    exact List.pairwise_map.mp hrange
  refine hindices.imp ?_
  rintro ⟨x, i⟩ ⟨y, j⟩ hlt e he f hf
  obtain ⟨damage, -, rfl⟩ := Option.map_eq_some_iff.mp he
  obtain ⟨damage', -, rfl⟩ := Option.map_eq_some_iff.mp hf
  exact hlt

/-! ## Before the table is read -/

/-- The blocks of an archive as they are found in the data file, without a forest. -/
def unread (codec : Codec) (d : Dictionary) (data : Bytes) : Archive where
  frame := d.toFrame
  blocks := d.blocks.map (Block.load codec d.isCompressed data)
  forest := ⟨[]⟩

section Readable

variable (hload : Dictionary.load pair.dictionary = .ok d)
  (hbounds : d.checkBounds pair.data.length = .ok ())

include hload hbounds

/-- The faults are the blocks that can not be unpacked. -/
theorem mem_faults_unread {index : Nat} {damage : Damage} :
    (index, damage) ∈ (unread codec d pair.data).faults ↔ pair.Fails codec index damage := by
  have hslice : ∀ e ∈ d.blocks, ∃ stored,
      Bytes.slice? pair.data e.offset.toNat (e.stop d.isCompressed) = some stored := by
    intro e he
    have hstop := Dictionary.checkBounds_eq_ok.mp hbounds e he
    exact ⟨_, if_pos ⟨Nat.le_add_right _ _, hstop⟩⟩
  rw [mem_faults, unread, FilePair.Fails]
  simp only [List.getElem?_map, Option.map_eq_some_iff]
  constructor
  · rintro ⟨x, ⟨e, he, rfl⟩, hdamage⟩
    obtain ⟨stored, hstored⟩ := hslice e (List.mem_of_getElem? he)
    rw [Block.load_of_slice? hstored, Block.damage_ofStored] at hdamage
    refine ⟨d, e, stored, hload, hbounds, he, hdamage.1, ?_, hdamage.2⟩
    rw [FilePair.stored?_eq hload, he, Option.bind_some, hstored]
  · rintro ⟨d', e, stored, hload', -, he, hpacked, hstored, hdamage⟩
    obtain rfl : d = d' := Except.ok.inj (hload.symm.trans hload')
    rw [FilePair.stored?_eq hload, he, Option.bind_some] at hstored
    refine ⟨_, ⟨e, he, rfl⟩, ?_⟩
    rw [Block.load_of_slice? hstored, Block.damage_ofStored]
    exact ⟨hpacked, hdamage⟩

/-- With the blocks at hand, damage comes before the table. -/
theorem load_eq_of_readable (strict : Bool) : load codec strict pair
    = match strict, (unread codec d pair.data).faults with
      | true, (index, damage) :: _ => .error (.corruptBlock index damage)
      | _, _ => do
        let forest ← readForest ((unread codec d pair.data).blocks.map Block.bytes)
        return { unread codec d pair.data with forest } := by
  unfold load
  rw [hload]
  show (d.checkBounds pair.data.length >>= _) = _
  rw [hbounds]
  rfl

/-- Strict opening stops at the first fault, and without one it is no other than lenient opening. -/
theorem load_strict_eq : load codec true pair
    = match (unread codec d pair.data).faults with
      | [] => load codec false pair
      | (index, damage) :: _ => .error (.corruptBlock index damage) := by
  rw [load_eq_of_readable hload hbounds, load_eq_of_readable hload hbounds]
  cases (unread codec d pair.data).faults <;> rfl

/-- The first fault is the lowest block that can not be unpacked. -/
theorem fails_of_faults {index : Nat} {damage : Damage} {others : List (Nat × Damage)}
    (hfaults : (unread codec d pair.data).faults = (index, damage) :: others) :
    pair.Fails codec index damage ∧ ∀ i damage', pair.Fails codec i damage' → index ≤ i := by
  have hsorted := (unread codec d pair.data).faults_sorted
  rw [hfaults, List.pairwise_cons] at hsorted
  simp only [← mem_faults_unread hload hbounds, hfaults, List.mem_cons]
  refine ⟨Or.inl trivial, ?_⟩
  rintro i damage' (heq | hmem)
  · exact Nat.le_of_eq (congrArg Prod.fst heq).symm
  · exact Nat.le_of_lt (hsorted.1 _ hmem)

end Readable

/-- An archive that has been opened has the faults of its blocks. -/
theorem faults_of_load {strict : Bool} {a : Archive} (h : load codec strict pair = .ok a) :
    ∃ d, Dictionary.load pair.dictionary = .ok d ∧ d.checkBounds pair.data.length = .ok ()
      ∧ a.faults = (unread codec d pair.data).faults := by
  obtain ⟨d, hload, hbounds, -, hblocks, -, -⟩ := load_eq_ok.mp h
  exact ⟨d, hload, hbounds, by rw [faults, faults, hblocks, unread]⟩

/-- Where the blocks are not reached, both ways of opening end alike. -/
theorem load_of_unreadable (h : ∀ d, Dictionary.load pair.dictionary = .ok d →
      d.checkBounds pair.data.length ≠ .ok ()) (strict strict' : Bool) :
    load codec strict pair = load codec strict' pair := by
  unfold load
  cases hload : Dictionary.load pair.dictionary with
  | error e => rfl
  | ok d =>
      cases hbounds : d.checkBounds pair.data.length with
      | ok _ => exact absurd hbounds (h d hload)
      | error e =>
          show (d.checkBounds pair.data.length >>= _) = (d.checkBounds pair.data.length >>= _)
          rw [hbounds]
          rfl

/-- **Strict opening reports the first block that can not be unpacked, and makes no other
difference.** So it succeeds exactly where lenient opening does so without faults, and the first
fault that lenient opening records is the one that it reports. -/
theorem load_strict (codec : Codec) (pair : FilePair) :
    ((∃ i damage, pair.Fails codec i damage) →
        ∃ index damage, pair.Fails codec index damage
          ∧ (∀ i damage', pair.Fails codec i damage' → index ≤ i)
          ∧ load codec true pair = .error (.corruptBlock index damage))
      ∧ ((¬ ∃ i damage, pair.Fails codec i damage) → load codec true pair = load codec false pair)
      ∧ (∀ a, load codec true pair = .ok a ↔ load codec false pair = .ok a ∧ a.faults = [])
      ∧ ∀ a index damage others, load codec false pair = .ok a →
          a.faults = (index, damage) :: others →
          load codec true pair = .error (.corruptBlock index damage) := by
  refine ⟨?_, fun hnone => ?_, fun a => ?_, ?_⟩
  · rintro ⟨i, damage, hfails⟩
    have ⟨d, _, _, hload, hbounds, _⟩ := hfails
    have hmem := (mem_faults_unread hload hbounds).mpr hfails
    cases hfaults : (unread codec d pair.data).faults with
    | nil =>
        rw [hfaults] at hmem
        cases hmem
    | cons first others =>
        obtain ⟨hfirst, hlowest⟩ := fails_of_faults hload hbounds hfaults
        refine ⟨first.1, first.2, hfirst, hlowest, ?_⟩
        rw [load_strict_eq hload hbounds, hfaults]
  · by_cases hreadable : ∃ d, Dictionary.load pair.dictionary = .ok d
        ∧ d.checkBounds pair.data.length = .ok ()
    · obtain ⟨d, hload, hbounds⟩ := hreadable
      rw [load_strict_eq hload hbounds]
      cases hfaults : (unread codec d pair.data).faults with
      | nil => rfl
      | cons first others =>
          exact absurd ⟨_, _, (fails_of_faults hload hbounds hfaults).1⟩ hnone
    · exact load_of_unreadable (fun d hload hbounds => hreadable ⟨d, hload, hbounds⟩) _ _
  · rw [load_eq_ok, load_eq_ok]
    constructor
    · rintro ⟨d, hload, hbounds, hframe, hblocks, hfaults, hforest⟩
      exact ⟨⟨d, hload, hbounds, hframe, hblocks, nofun, hforest⟩, hfaults rfl⟩
    · rintro ⟨⟨d, hload, hbounds, hframe, hblocks, -, hforest⟩, hfaults⟩
      exact ⟨d, hload, hbounds, hframe, hblocks, fun _ => hfaults, hforest⟩
  · intro a index damage others hlenient hfaults
    obtain ⟨d, hload, hbounds, heq⟩ := faults_of_load hlenient
    rw [load_strict_eq hload hbounds, ← heq, hfaults]

/-- The second and the third block can not be unpacked, for different reasons. If nor can the first
one, its bytes are no table. -/
theorem load_strict_three_blocks :
    let dictionary : Bytes :=
      [0x58, 0x24, 0xF3, 0xA9, 1, 0, 1, 0, 12, 0, 0, 0, 3, 0, 0, 0,
        0, 0, 0, 0, 12, 0, 0, 0, 17, 0, 0, 0, 0, 0, 0, 0,
        17, 0, 0, 0, 5, 0, 0, 0, 1, 0, 0, 0, 0, 0, 0, 0,
        18, 0, 0, 0, 5, 0, 0, 0, 6, 0, 0, 0, 0, 0, 0, 0]
    let behind : Bytes :=
      [12, 0, 0xF3, 0xFF, 5, 0, 0, 0, 0, 0, 0, 0, 1, 0, 0, 0, 0xFF, 1, 1, 0, 0xFE, 0xFF, 7]
    (∃ a, load Codec.deflate false ⟨dictionary, 1 :: behind⟩ = .ok a
        ∧ a.faults = [(1, .corrupt), (2, .wrongLength 1 5)]
        ∧ load Codec.deflate true ⟨dictionary, 1 :: behind⟩ = .error (.corruptBlock 1 .corrupt))
      ∧ FilePair.Fails Codec.deflate ⟨dictionary, 0xFF :: behind⟩ 0 .corrupt
      ∧ load Codec.deflate false ⟨dictionary, 0xFF :: behind⟩ = .error (.table 12 (.trailing 5))
      ∧ ∃ damage, load Codec.deflate true ⟨dictionary, 0xFF :: behind⟩
          = .error (.corruptBlock 0 damage) := by
  intro dictionary behind
  let d : Dictionary := { isCompressed := true, blocks :=
    [⟨0, 12, 17, 0, (0, 0, 0)⟩, ⟨17, 5, 1, 0, (0, 0, 0)⟩, ⟨18, 5, 6, 0, (0, 0, 0)⟩] }
  let a : Archive := ⟨d.toFrame, [⟨⟨0, 12, 17, 0, (0, 0, 0)⟩,
      [5, 0, 0, 0, 0, 0, 0, 0, 1, 0, 0, 0], none⟩,
    ⟨⟨17, 5, 1, 0, (0, 0, 0)⟩, [0xFF], some .corrupt⟩,
    ⟨⟨18, 5, 6, 0, (0, 0, 0)⟩, [1, 1, 0, 0xFE, 0xFF, 7], some (.wrongLength 1 5)⟩],
    ⟨[.ofPayload 5 0 0 [0xFF]]⟩⟩
  have hlenient : load Codec.deflate false ⟨dictionary, 1 :: behind⟩ = .ok a := by decide +kernel
  have hfails : FilePair.Fails Codec.deflate ⟨dictionary, 0xFF :: behind⟩ 0 .corrupt :=
    ⟨d, ⟨0, 12, 17, 0, (0, 0, 0)⟩, 0xFF :: behind.take 16, by decide +kernel, by decide +kernel,
      rfl, rfl, by decide +kernel, by decide +kernel⟩
  obtain ⟨-, -, -, hfirst⟩ := load_strict Codec.deflate ⟨dictionary, 1 :: behind⟩
  obtain ⟨hlowest, -⟩ := load_strict Codec.deflate ⟨dictionary, 0xFF :: behind⟩
  obtain ⟨index, damage, -, hle, hstrict⟩ := hlowest ⟨0, _, hfails⟩
  obtain rfl : index = 0 := Nat.le_zero.mp (hle 0 _ hfails)
  exact ⟨⟨a, hlenient, rfl, hfirst a 1 .corrupt _ hlenient rfl⟩, hfails, by decide +kernel, damage,
    hstrict⟩

end Archive

end ChunkArchive
