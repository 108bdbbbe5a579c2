import ChunkArchive.Proofs.Archive.Coherence

/-!
# Edits where leaves overlap

In a file that is loaded leaves may share bytes. An edit moves the leaves that start behind the
target; one that starts no later stays where it is, also if it reaches over the target, while the
block around it gets shorter with the payload. Such an archive is saved, but it is opened again
only if every leaf that stays still lies within the block (`Archive.load_save_setPayload_iff`).
-/

set_option autoImplicit false

namespace ChunkArchive

namespace Archive

/-! ## What an edit keeps -/

namespace Edited

variable {a b : Archive} {path : Path} {h : Header} {old payload : Bytes} {moves : List Move}
  {block : Block} (hregular : a.forest.Regular) (htarget : a.forest.leaf? path = some (h, old))

theorem within_iff_le (he : Edited a path h payload moves block b) {k : Header} {x : Bytes}
    (hblock : k.blockIndex = h.blockIndex) : (Node.leaf k x).Within b.dataBlocks ↔
      k.stop ≤ (rebuildBlock block.bytes h payload moves).length := by
  rw [Node.Within, hblock, he.dataBlocks, if_pos rfl]
  simp

theorem within_before_iff_le (he : Edited a path h payload moves block b) {k : Header} {x : Bytes}
    (hblock : k.blockIndex = h.blockIndex) :
    (Node.leaf k x).Within a.dataBlocks ↔ k.stop ≤ block.bytes.length := by
  rw [Node.Within, hblock, he.dataBlock]
  simp

theorem within_of_other_block (he : Edited a path h payload moves block b) {k : Header} {x : Bytes}
    (hblock : k.blockIndex ≠ h.blockIndex) :
    (Node.leaf k x).Within b.dataBlocks ↔ (Node.leaf k x).Within a.dataBlocks := by
  rw [Node.Within, Node.Within, he.dataBlocks, if_neg hblock]

theorem stop_le_of_moved (he : Edited a path h payload moves block b) {m : Move} (hm : m ∈ moves)
    {k : Header} {x : Bytes} (hnode : m.node = .leaf k x) (hsize : k.size.toNat = x.length) :
    m.offset + k.size.toNat ≤ (rebuildBlock block.bytes h payload moves).length := by
  have hslice : Bytes.slice? (rebuildBlock block.bytes h payload moves) m.offset
      (m.offset + x.length) = some x := slice?_rebuildBlock_move he.plan.inOrder hm hnode hsize
  rw [hsize]
  exact (Bytes.slice?_bounds hslice).2

/-- A leaf that stays lies within the new block, if those do that start no later than the target.
Where one that starts later stays, the payload has the length of the old one. -/
theorem within_of_stays (he : Edited a path h payload moves block b) {q : Path} {k : Header}
    {x : Bytes} (hq : a.forest.get? q = some (.leaf k x)) (hflag : k.hasChildren = false)
    (hstays : q ∉ moves.map Move.path) (hblock : k.blockIndex = h.blockIndex)
    (hwithin : (Node.leaf k x).Within a.dataBlocks)
    (hle : k.offset ≤ h.offset → k.stop ≤ (rebuildBlock block.bytes h payload moves).length) :
    (Node.leaf k x).Within b.dataBlocks := by
  refine (he.within_iff_le hblock).mpr ?_
  rcases he.plan.complete with ⟨hlen, -⟩ | hall
  · have hstop := (he.within_before_iff_le hblock).mp hwithin
    exact hstop.trans (length_le_rebuildBlock moves hlen.ge)
  · refine hle (UInt32.not_lt.mp fun hlt => hstays (hall q _ hq ?_))
    exact Forest.follows_leaf.mpr ⟨⟨hflag, hblock⟩, Or.inl hlt⟩

include hregular htarget

/-- A leaf that started no later than the target ends within the new block, if all leaves do. -/
theorem stop_le_of_within (he : Edited a path h payload moves block b)
    (hwithin : ∀ e ∈ b.forest.walk, e.2.Within b.dataBlocks) {q : Path} {k : Header} {x : Bytes}
    (hne : q ≠ path) (hq : a.forest.get? q = some (.leaf k x))
    (hblock : k.blockIndex = h.blockIndex) (hoffset : k.offset ≤ h.offset) :
    k.stop ≤ (rebuildBlock block.bytes h payload moves).length := by
  have hleaves := he.leaf?_of_moved fun e he => (hregular e he).1
  by_cases hmem : q ∈ moves.map Move.path
  · -- a leaf that is moved from the place of the target has ended before its new end
    obtain ⟨m, hm, rfl⟩ := List.mem_map.mp hmem
    have hnode := (he.plan.following m hm).1
    rw [hq, Option.some.injEq] at hnode
    have hsize := (hregular _ (Forest.mem_walk.mpr hq)).2.1
    have hplace := he.plan.le_offset m hm
    rw [UInt32.le_iff_toNat_le] at hoffset
    calc k.stop = k.offset.toNat + k.size.toNat := rfl
      _ ≤ m.offset + k.size.toNat := by omega
      _ ≤ (rebuildBlock block.bytes h payload moves).length :=
          he.stop_le_of_moved hm hnode.symm hsize
  · have hk := Forest.leaf?_edited_other he.plan htarget hleaves hne hmem
    rw [← he.forest, Forest.leaf?_eq_some.mpr hq] at hk
    exact (he.within_iff_le hblock).mp (hwithin _ (Forest.mem_walk.mpr (Forest.leaf?_eq_some.mp hk)))

/-- After an edit every leaf lies within its block exactly if those of the target's block do that
start no later than the target. -/
theorem within_iff (he : Edited a path h payload moves block b)
    (hwithin : ∀ e ∈ a.forest.walk, e.2.Within a.dataBlocks) :
    (∀ e ∈ b.forest.walk, e.2.Within b.dataBlocks) ↔
      ∀ q k x, q ≠ path → a.forest.get? q = some (.leaf k x) → k.blockIndex = h.blockIndex →
        k.offset ≤ h.offset → k.stop ≤ (rebuildBlock block.bytes h payload moves).length := by
  have hleaves := he.leaf?_of_moved fun e he => (hregular e he).1
  constructor
  · intro hafter q k x hne hq hblock hoffset
    exact he.stop_le_of_within hregular htarget hafter hne hq hblock hoffset
  · rintro hstops ⟨q, node⟩ hmem
    rcases Forest.get?_cases (Forest.mem_walk.mp hmem) with ⟨k, x, rfl, hq⟩ | ⟨k, cs, rfl, -⟩
    · rw [he.forest] at hq
      rcases Forest.leaf?_edited_cases he.plan htarget hleaves hq with
        ⟨rfl, rfl, rfl⟩ | ⟨m, hm, rfl, k₀, hnode, hk₀, rfl⟩ | ⟨hne, hstays, hk⟩
      · -- the target
        exact he.backed_target.within
      · -- a moved leaf
        have hfollows := (he.plan.following m hm).2
        rw [hnode] at hfollows
        have hblock := (Forest.follows_leaf.mp hfollows).1.2
        exact (he.backed_moved hm hnode hblock (hregular.leaf hk₀).2.1).within
      · -- a leaf that stays
        have hget := Forest.leaf?_eq_some.mp hk
        have hbefore := hwithin _ (Forest.mem_walk.mpr hget)
        by_cases hblock : k.blockIndex = h.blockIndex
        · exact he.within_of_stays hget (hregular.leaf hk).1 hstays hblock hbefore
            (hstops q k x hne hget hblock)
        · exact (he.within_of_other_block hblock).mpr hbefore
    · exact trivial

end Edited

/-! ## Opening what has been edited -/

/-- What is loaded has flags, sizes and payloads that fit. -/
theorem fits_of_load {codec : Codec} {strict : Bool} {pair : FilePair} {a : Archive}
    (h : load codec strict pair = .ok a) : ∀ e ∈ a.forest.walk,
      e.2.FlagFits ∧ e.2.SizeFits ∧ e.2.Backed a.dataBlocks ∧ e.1.depth ≤ maxDepth := by
  have hforest := (sound_of_load h).forest
  rw [dataBlocks]
  cases hblocks : a.blocks with
  | nil =>
      rw [hblocks] at hforest
      have hroots : ⟨[]⟩ = a.forest := Except.ok.inj hforest
      rw [← hroots]
      exact fun e he => (List.not_mem_nil he).elim
  | cons first others =>
      rw [hblocks] at hforest
      exact Forest.readable_iff_walk.mp (Forest.parse_eq_ok.mp hforest).2

/-- An archive without faults, whose first block is the table of its forest, is opened again exactly
if every leaf lies within its block. -/
theorem exists_load_iff_within {codec : Codec} {level : Nat} {a : Archive} {saved : FilePair}
    (hregular : a.forest.Regular)
    (htable : a.blocks.map Block.bytes = a.forest.table :: a.dataBlocks) (hfaults : a.faults = [])
    (hnames : ∀ name ∈ a.frame.names, 0 ∉ Utf8.encode name)
    (hblocks : ∀ x ∈ a.blocks, x.bytes.length < 2 ^ 32)
    (hstored : ∀ s ∈ a.stored codec level, s.2.length < 2 ^ 32)
    (hsave : a.save codec level = .ok saved) (strict : Bool) :
    (∃ c, load codec strict saved = .ok c) ↔ ∀ e ∈ a.forest.walk, e.2.Within a.dataBlocks := by
  have hsound : ∀ x ∈ a.blocks, x.Sound codec := sound_of_faults_eq_nil hfaults hblocks
  obtain ⟨b, hb, hload⟩ := load_saved_eq_ok hsound hnames hstored hsave
  constructor
  · rintro ⟨c, hc⟩
    obtain ⟨-, -, -, hforest⟩ := (hload strict c).mp hc
    rw [htable] at hforest
    exact (hregular.parse_table_eq_ok.mp hforest).1
  · intro hwithin
    let c : Archive := { b with forest := a.forest.reread a.dataBlocks }
    have hnone : b.faults = [] := by rw [hb.faults, hfaults, ite_self]
    refine ⟨c, (hload strict c).mpr ⟨rfl, rfl, fun _ => hnone, ?_⟩⟩
    rw [htable]
    exact hregular.parse_table_eq_ok.mpr ⟨hwithin, rfl⟩

/-- **When an edited archive can be opened again.** An archive that has been loaded without faults
is edited and saved. It is opened again exactly if every other leaf of the target's block that
starts no later than the target ends within the new block. That is so if the payload does not get
shorter, and also if no such leaf reaches behind the new payload. -/
theorem load_save_setPayload_iff {codec : Codec} {level : Nat} {strict : Bool}
    {pair saved : FilePair} {a b : Archive} {path : Path} {h : Header} {old payload : Bytes}
    (hload : load codec strict pair = .ok a) (hfaults : a.faults = [])
    (htarget : a.forest.get? path = some (.leaf h old))
    (hset : a.setPayload path payload = .ok b)
    (hblocks : ∀ x ∈ b.blocks, x.bytes.length < 2 ^ 32)
    (hstored : ∀ s ∈ b.stored codec level, s.2.length < 2 ^ 32)
    (hsave : b.save codec level = .ok saved) :
    ∃ block, b.dataBlocks[h.blockIndex]? = some block
      ∧ h.offset.toNat + payload.length ≤ block.length
      ∧ (∀ strict, (∃ c, load codec strict saved = .ok c) ↔
          ∀ q k x, q ≠ path → a.forest.get? q = some (.leaf k x) → k.blockIndex = h.blockIndex →
            k.offset ≤ h.offset → k.stop ≤ block.length)
      ∧ (old.length ≤ payload.length → ∀ strict, ∃ c, load codec strict saved = .ok c) := by
  have hfits := fits_of_load hload
  have hregular : a.forest.Regular := fun e he => ⟨(hfits e he).1, (hfits e he).2.1, (hfits e he).2.2.2⟩
  have hleaf? := Forest.leaf?_eq_some.mpr htarget
  obtain ⟨moves, block, he⟩ := edited_of_setPayload hleaf? hset
  have hnone : b.faults = [] := by
    rw [faults_eq, he.damage, ← faults_eq]
    exact hfaults
  have hnames : ∀ name ∈ b.frame.names, 0 ∉ Utf8.encode name := by
    rw [he.frame]
    exact (sound_of_load hload).names
  have hopen := exists_load_iff_within (he.regular hregular hleaf?) he.head_blocks hnone hnames
    hblocks hstored hsave
  have hiff := he.within_iff hregular hleaf? fun e he => (hfits e he).2.2.1.within
  refine ⟨_, (he.dataBlocks h.blockIndex).trans (if_pos rfl), ?_, ?_, ?_⟩
  · exact (Nat.le_add_right _ _).trans (le_length_rebuildBlock block.bytes h payload moves)
  · exact fun strict => (hopen strict).trans hiff
  · intro hle strict
    refine (hopen strict).mpr (hiff.mpr fun q k x _ hq hblock _ => ?_)
    -- the leaf was within the old block, which has not become shorter
    have hwithin := (hfits _ (Forest.mem_walk.mpr hq)).2.2.1.within
    have hsize : h.size.toNat = old.length := (hregular.leaf hleaf?).2.1
    calc k.stop ≤ block.bytes.length := (he.within_before_iff_le hblock).mp hwithin
      _ ≤ _ := length_le_rebuildBlock moves (hsize.trans_le hle)

/-- Two leaves share two bytes, of which the second one loses two: the first one just ends within
the block. -/
theorem load_save_setPayload_iff_shared :
    let files (size : UInt8) (forest : Forest) (data : Bytes) : FilePair := ⟨
      [0x58, 0x24, 0xF3, 0xA9, 1, 0, 0, 0, 24, 0, 0, 0, 2, 0, 0, 0,
        0, 0, 0, 0, 24, 0, 0, 0, 24, 0, 0, 0, 0, 0, 0, 0,
        24, 0, 0, 0, size, 0, 0, 0, 8, 0, 0, 0, 0, 0, 0, 0], forest.table ++ data⟩
    let forest (x : Bytes) : Forest := ⟨[.ofPayload 1 0 0 [1, 2, 3, 4, 5, 6], .ofPayload 2 0 4 x]⟩
    let archive (forest : Forest) (data : Bytes) : Archive :=
      ⟨{ isCompressed := false }, [⟨⟨0, 24, 24, 0, (0, 0, 0)⟩, forest.table, none⟩,
        ⟨⟨24, UInt32.ofNat data.length, 8, 0, (0, 0, 0)⟩, data, none⟩], forest⟩
    let a := archive (forest [5, 6, 7, 8]) [1, 2, 3, 4, 5, 6, 7, 8]
    let b := archive (forest [9, 9]) [1, 2, 3, 4, 9, 9]
    let saved := files 6 b.forest [1, 2, 3, 4, 9, 9]
    load Codec.deflate false (files 8 a.forest [1, 2, 3, 4, 5, 6, 7, 8]) = .ok a
      ∧ a.faults = []
      ∧ a.forest.get? ⟨1, []⟩ = some (.ofPayload 2 0 4 [5, 6, 7, 8])
      ∧ a.setPayload ⟨1, []⟩ [9, 9] = .ok b
      ∧ (∀ x ∈ b.blocks, x.bytes.length < 2 ^ 32)
      ∧ (∀ s ∈ b.stored Codec.deflate 0, s.2.length < 2 ^ 32)
      ∧ b.save Codec.deflate 0 = .ok saved
      ∧ ∃ c, load Codec.deflate false saved = .ok c := by
  intro files forest archive a b saved
  have hload : load Codec.deflate false (files 8 a.forest [1, 2, 3, 4, 5, 6, 7, 8]) = .ok a := by
    decide +kernel
  have hfaults : a.faults = [] := by decide +kernel
  have hmoves : a.forest.moves ⟨1, []⟩ ⟨2, 0, 4, 4⟩ 2 = .ok [] := by cbv
  have hset : a.setPayload ⟨1, []⟩ [9, 9] = .ok b :=
    (setPayload_of_moves rfl rfl rfl rfl (by decide) hmoves).trans (by decide +kernel)
  have hblocks : ∀ x ∈ b.blocks, x.bytes.length < 2 ^ 32 := by decide +kernel
  have hstored : ∀ s ∈ b.stored Codec.deflate 0, s.2.length < 2 ^ 32 := by decide +kernel
  have hsave : b.save Codec.deflate 0 = .ok saved := by decide +kernel
  obtain ⟨block, hblock, -, hopen, -⟩ :=
    load_save_setPayload_iff hload hfaults rfl hset hblocks hstored hsave
  obtain rfl : [1, 2, 3, 4, 9, 9] = block := Option.some.inj hblock
  have hstop : ∀ e ∈ a.forest.walk, e.1 = ⟨1, []⟩ ∨ e.2.header.stop ≤ 6 := by decide +kernel
  refine ⟨hload, hfaults, rfl, hset, hblocks, hstored, hsave, (hopen false).mpr ?_⟩
  intro q k x hne hq _ _
  exact (hstop (q, .leaf k x) (Forest.mem_walk.mpr hq)).resolve_left hne

/-- The second leaf lies at the end of the first one and is emptied. The block ends there then, and
the first leaf, which has not changed, reaches beyond it. -/
theorem load_save_setPayload_error :
    let files (size : UInt8) (forest : Forest) (data : Bytes) : FilePair := ⟨
      [0x58, 0x24, 0xF3, 0xA9, 1, 0, 0, 0, 24, 0, 0, 0, 2, 0, 0, 0,
        0, 0, 0, 0, 24, 0, 0, 0, 24, 0, 0, 0, 0, 0, 0, 0,
        24, 0, 0, 0, size, 0, 0, 0, 8, 0, 0, 0, 0, 0, 0, 0], forest.table ++ data⟩
    let forest (x : Bytes) : Forest :=
      ⟨[.ofPayload 1 0 0 [1, 2, 3, 4, 5, 6, 7, 8], .ofPayload 2 0 4 x]⟩
    ∃ a b, load Codec.deflate false (files 8 (forest [5, 6, 7, 8]) [1, 2, 3, 4, 5, 6, 7, 8]) = .ok a
      ∧ a.faults = []
      ∧ a.forest.get? ⟨1, []⟩ = some (.ofPayload 2 0 4 [5, 6, 7, 8])
      ∧ a.setPayload ⟨1, []⟩ [] = .ok b
      ∧ (∀ x ∈ b.blocks, x.bytes.length < 2 ^ 32)
      ∧ (∀ s ∈ b.stored Codec.deflate 0, s.2.length < 2 ^ 32)
      ∧ b.save Codec.deflate 0 = .ok (files 4 (forest []) [1, 2, 3, 4])
      ∧ ∀ strict, load Codec.deflate strict (files 4 (forest []) [1, 2, 3, 4])
          = .error (.table 0 (.payloadOutside 0 8 0 4)) := by
  intro files forest
  let archive (forest : Forest) (data : Bytes) : Archive :=
    ⟨{ isCompressed := false }, [⟨⟨0, 24, 24, 0, (0, 0, 0)⟩, forest.table, none⟩,
      ⟨⟨24, UInt32.ofNat data.length, 8, 0, (0, 0, 0)⟩, data, none⟩], forest⟩
  let a := archive (forest [5, 6, 7, 8]) [1, 2, 3, 4, 5, 6, 7, 8]
  let b := archive (forest []) [1, 2, 3, 4]
  have hmoves : a.forest.moves ⟨1, []⟩ ⟨2, 0, 4, 4⟩ 0 = .ok [] := by cbv
  have hset : a.setPayload ⟨1, []⟩ [] = .ok b :=
    (setPayload_of_moves rfl rfl rfl rfl (by decide) hmoves).trans (by decide +kernel)
  exact ⟨a, b, by decide +kernel, by decide +kernel, rfl, hset, by decide +kernel,
    by decide +kernel, by decide +kernel, by decide +kernel⟩

end Archive

end ChunkArchive
