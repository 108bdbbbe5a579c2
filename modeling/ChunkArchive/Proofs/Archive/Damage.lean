import ChunkArchive.Proofs.Archive.Changes

/-!
# Damaged blocks on their way through an archive

A block that could not be unpacked is kept as it was stored. It is written back as it was,
whatever has been edited since and in whichever mode the archive is saved, unless it is the first
one: this is the table, which every edit writes anew (`Archive.stored?_save`).
-/

set_option autoImplicit false

namespace ChunkArchive

/-- The bytes of a block in the data file, as the dictionary says where they are. -/
def FilePair.stored? (pair : FilePair) (index : Nat) : Option Bytes :=
  match Dictionary.load pair.dictionary with
  | .error _ => none
  | .ok dictionary => dictionary.blocks[index]?.bind fun d =>
    Bytes.slice? pair.data d.offset.toNat (d.stop dictionary.isCompressed)

theorem FilePair.stored?_eq {pair : FilePair} {d : Dictionary}
    (hload : Dictionary.load pair.dictionary = .ok d) (index : Nat) :
    pair.stored? index = d.blocks[index]?.bind fun e =>
      Bytes.slice? pair.data e.offset.toNat (e.stop d.isCompressed) := by
  rw [stored?, hload]

namespace Archive

variable {codec : Codec} {level : Nat}

/-! ## Loading -/

/-- A block that cannot be unpacked keeps the bytes that are stored. -/
theorem bytes_load_of_damage {compressed : Bool} {data : Bytes} {d : Descriptor}
    (h : (Block.load codec compressed data d).damage.isSome) :
    (Block.load codec compressed data d).bytes
      = (data.drop d.offset.toNat).take (d.storedSize compressed).toNat := by
  obtain ⟨damage, hdamage⟩ := Option.isSome_iff_exists.mp h
  rw [Block.load_eq] at hdamage ⊢
  obtain ⟨hpacked, hunpack⟩ := Block.damage_ofStored.mp hdamage
  rw [Block.ofStored, if_pos hpacked, hunpack]

/-- A damaged block is found in the data file with the bytes that it has. -/
theorem stored?_of_load {strict : Bool} {pair : FilePair} {a : Archive}
    (hload : load codec strict pair = .ok a) {index : Nat} {x : Block}
    (hx : a.blocks[index]? = some x) (hdamage : x.damage.isSome) :
    pair.stored? index = some x.bytes := by
  obtain ⟨d, hd, hbounds, -, hblocks, -, -⟩ := load_eq_ok.mp hload
  rw [hblocks, List.getElem?_map, Option.map_eq_some_iff] at hx
  obtain ⟨descriptor, hdescriptor, rfl⟩ := hx
  have hstop : descriptor.stop d.isCompressed ≤ pair.data.length :=
    Dictionary.checkBounds_eq_ok.mp hbounds _ (List.mem_of_getElem? hdescriptor)
  rw [FilePair.stored?_eq hd, hdescriptor, Option.bind_some, bytes_load_of_damage hdamage, Bytes.slice?,
    if_pos ⟨Nat.le_add_right _ _, hstop⟩, Descriptor.stop, Nat.add_sub_cancel_left]

/-! ## Saving -/

/-- A damaged block is stored as it is. -/
theorem store_damaged (codec : Codec) (level : Nat) {x : Block} (hdamage : x.damage.isSome)
    (compressed : Bool) : (x.store codec level compressed).2 = x.bytes := by
  rcases Block.store_cases codec level compressed x with
    ⟨-, h⟩ | ⟨-, -, h⟩ | ⟨-, hnone, -⟩ | ⟨-, hnone, -⟩
  · rw [h]
  · rw [h]
  · rw [hnone] at hdamage
    cases hdamage
  · rw [hnone] at hdamage
    cases hdamage

/-- A damaged block is found with the bytes that it has where the archive has been saved. -/
theorem stored?_of_save {a : Archive} {saved : FilePair}
    (hnames : ∀ name ∈ a.frame.names, 0 ∉ Utf8.encode name)
    (hsave : a.save codec level = .ok saved) {index : Nat} {x : Block}
    (hx : a.blocks[index]? = some x) (hdamage : x.damage.isSome)
    (hlen : x.bytes.length < 2 ^ 32) : saved.stored? index = some x.bytes := by
  obtain ⟨ds, hds, hdictionary, hdata⟩ := save_eq_ok.mp hsave
  have hload := Dictionary.load_save (d := { a.frame with blocks := ds }) hnames hdictionary
  have hstored : (a.stored codec level)[index]?
      = some (x.store codec (min level Codec.maxLevel) a.isCompressed) := by
    rw [stored, List.getElem?_map, hx]
    rfl
  obtain ⟨d, hd, hplace⟩ := forall₂_getElem? (places_of_assignOffsets hds) hstored
  have hbytes := store_damaged codec (min level Codec.maxLevel) hdamage a.isCompressed
  have hslice := Block.slice?_of_places (hbytes ▸ hlen) hplace
  rw [hbytes, ← hdata] at hslice
  rw [FilePair.stored?_eq hload]
  show (ds[index]?.bind _) = _
  rw [hd, Option.bind_some]
  exact hslice

/-! ## In between -/

/-- The table of what is loaded is no longer than its first block. -/
theorem length_table_le_of_load {strict : Bool} {pair : FilePair} {a : Archive}
    (hload : load codec strict pair = .ok a) {x : Block} (hx : a.blocks[0]? = some x) :
    a.forest.table.length ≤ x.bytes.length := by
  have hforest := (sound_of_load hload).forest
  cases hblocks : a.blocks with
  | nil =>
      rw [hblocks] at hx
      cases hx
  | cons first others =>
      rw [hblocks] at hforest hx
      obtain rfl : first = x := Option.some.inj hx
      obtain ⟨⟨padding, htable, -⟩, -⟩ := Forest.parse_eq_ok.mp hforest
      rw [htable, List.length_append]
      exact Nat.le_add_right _ _

/-- **The stored bytes of damaged blocks are kept.** An archive is loaded, changed any number of
times and saved. It has the faults that it had, and each block that they name has the bytes in the
data file that it had in the one it was loaded from. Only the first block has the new table in
their place, if there has been an edit. -/
theorem stored?_save {pair saved : FilePair} {a b : Archive} {changes : List Change}
    (hload : load codec false pair = .ok a)
    (hchanges : changes.foldlM (fun a c => c.apply a) a = .ok b)
    (hsave : b.save codec level = .ok saved) :
    b.faults = a.faults
      ∧ ∀ index damage, (index, damage) ∈ a.faults →
          ∃ stored, pair.stored? index = some stored
            ∧ saved.stored? index = some (if index = 0 ∧ changes.any Change.isEdit
                then b.forest.table else stored) := by
  have hkeeps := Change.keeps_run hchanges (fitting_of_load hload)
  have hsound := sound_of_load hload
  have hnames : ∀ name ∈ b.frame.names, 0 ∉ Utf8.encode name := by
    rw [hkeeps.names]
    exact hsound.names
  refine ⟨by rw [faults_eq, hkeeps.damage, ← faults_eq], fun index damage hfault => ?_⟩
  obtain ⟨x, hx, hdamage⟩ := mem_faults.mp hfault
  have hisSome : x.damage.isSome := hdamage ▸ rfl
  have hlen := (hsound.blocks x (List.mem_of_getElem? hx)).fits
  refine ⟨x.bytes, stored?_of_load hload hx hisSome, ?_⟩
  by_cases hzero : index = 0
  · -- the first block is still marked as damaged, but may hold the table
    subst hzero
    obtain ⟨y, hy, hbytes⟩ := hkeeps.first x hx
    have hdamage' : y.damage = x.damage := by
      have h := congrArg (fun ds : List (Option Damage) => ds[0]?) hkeeps.damage
      simpa [List.getElem?_map, hx, hy] using h
    have htable := length_table_le_of_load hload hx
    have hlen' : y.bytes.length < 2 ^ 32 := by
      rw [hbytes]
      split
      · rw [hkeeps.table]
        omega
      · exact hlen
    rw [stored?_of_save hnames hsave hy (hdamage' ▸ hisSome) hlen', hbytes]
    simp only [true_and]
  · rw [if_neg fun h => hzero h.1]
    exact stored?_of_save hnames hsave (hkeeps.others index x hx hisSome hzero) hisSome hlen

/-- Loads an archive, changes it and saves it. Gives the faults that it had when it was loaded,
and the bytes that a block has in the end. -/
def runChanges (codec : Codec) (level : Nat) (pair : FilePair) (changes : List Change)
    (index : Nat) : Except Error (List (Nat × Damage) × Option Bytes) := do
  let a ← load codec false pair
  let b ← changes.foldlM (fun a c => c.apply a) a
  let saved ← b.save codec level
  return (a.faults, saved.stored? index)

theorem saved_of_run {pair : FilePair} {changes : List Change} {index : Nat}
    {faults : List (Nat × Damage)} {stored : Option Bytes}
    (hrun : runChanges codec level pair changes index = .ok (faults, stored)) :
    ∃ a b saved, load codec false pair = .ok a
      ∧ changes.foldlM (fun a c => c.apply a) a = .ok b ∧ b.save codec level = .ok saved
      ∧ a.faults = faults ∧ saved.stored? index = stored := by
  obtain ⟨a, hload, hrun⟩ := Outcome.bind_eq_ok.mp hrun
  obtain ⟨b, hchanges, hrun⟩ := Outcome.bind_eq_ok.mp hrun
  obtain ⟨saved, hsave, hrun⟩ := Outcome.bind_eq_ok.mp hrun
  obtain ⟨hfaults, hstored⟩ := Prod.mk.inj (Outcome.pure_eq_ok.mp hrun)
  exact ⟨a, b, saved, hload, hchanges, hsave, hfaults, hstored⟩

/-- The third block of an archive is damaged. The second one gets shorter, and the archive is saved
plain. -/
theorem stored?_save_third :
    let pair : FilePair := ⟨
      [0x58, 0x24, 0xF3, 0xA9, 1, 0, 1, 0, 12, 0, 0, 0, 3, 0, 0, 0,
        0, 0, 0, 0, 12, 0, 0, 0, 12, 0, 0, 0, 0, 0, 1, 0,
        12, 0, 0, 0, 4, 0, 0, 0, 4, 0, 0, 0, 0, 0, 1, 0,
        16, 0, 0, 0, 5, 0, 0, 0, 2, 0, 0, 0, 0, 0, 0, 0],
      [1, 0, 0, 0, 0, 0, 0, 0, 4, 0, 0, 0, 5, 6, 7, 8, 0xFF, 0xFE]⟩
    let changes : List Change := [.payload ⟨0, []⟩ [9], .storage false]
    ∃ a b saved, load Codec.deflate false pair = .ok a
      ∧ changes.foldlM (fun a c => c.apply a) a = .ok b ∧ b.save Codec.deflate 6 = .ok saved
      ∧ b.faults = [(2, .corrupt)] ∧ saved.stored? 2 = pair.stored? 2 := by
  intro pair changes
  have hrun : runChanges Codec.deflate 6 pair changes 2
      = .ok ([(2, .corrupt)], some [0xFF, 0xFE]) := by decide +kernel
  obtain ⟨a, b, saved, hload, hchanges, hsave, hfaults, -⟩ := saved_of_run hrun
  obtain ⟨hsame, hkept⟩ := stored?_save hload hchanges hsave
  obtain ⟨stored, hbefore, hafter⟩ := hkept 2 .corrupt (by rw [hfaults]; decide)
  exact ⟨a, b, saved, hload, hchanges, hsave, hsame.trans hfaults, hafter.trans hbefore.symm⟩

/-- The first block of an archive is damaged, as its table does not unpack, but can be read as it
is. It has another length for the payload after an edit of the second block. -/
theorem stored?_save_first :
    let pair : FilePair := ⟨
      [0x58, 0x24, 0xF3, 0xA9, 1, 0, 1, 0, 12, 0, 0, 0, 2, 0, 0, 0,
        0, 0, 0, 0, 12, 0, 0, 0, 12, 0, 0, 0, 0, 0, 0, 0,
        12, 0, 0, 0, 4, 0, 0, 0, 4, 0, 0, 0, 0, 0, 1, 0],
      [1, 0, 0, 0, 0, 0, 0, 0, 4, 0, 0, 0, 5, 6, 7, 8]⟩
    let changes : List Change := [.payload ⟨0, []⟩ [9], .storage false]
    ∃ a b saved, load Codec.deflate false pair = .ok a
      ∧ changes.foldlM (fun a c => c.apply a) a = .ok b ∧ b.save Codec.deflate 6 = .ok saved
      ∧ (0, .corrupt) ∈ a.faults
      ∧ pair.stored? 0 = some [1, 0, 0, 0, 0, 0, 0, 0, 4, 0, 0, 0]
      ∧ saved.stored? 0 = some [1, 0, 0, 0, 0, 0, 0, 0, 1, 0, 0, 0] := by
  intro pair changes
  have hrun : runChanges Codec.deflate 6 pair changes 0
      = .ok ([(0, .corrupt)], some [1, 0, 0, 0, 0, 0, 0, 0, 1, 0, 0, 0]) := by decide +kernel
  obtain ⟨a, b, saved, hload, hchanges, hsave, hfaults, hstored⟩ := saved_of_run hrun
  refine ⟨a, b, saved, hload, hchanges, hsave, ?_, by decide +kernel, hstored⟩
  rw [hfaults]
  decide

end Archive

end ChunkArchive
