import ChunkArchive.Proofs.Archive.Placement

/-!
# What an edit leaves alone

An edit rewrites four parts of an archive: the forest, the block of its target, the table in the
first block, and the dictionary. `Archive.Spares` says of each of them what stays as it was, and
`Archive.setPayload_spares` that every edit spares so much. Flags and sizes have to fit the bodies,
and leaves have to lie inside their blocks; they may overlap, and other blocks may be damaged.
-/

set_option autoImplicit false

namespace ChunkArchive

/-! ## Outlines -/

/-- What stays of the header of a chunk: of a leaf its type and its flags, of a branch all. -/
def Node.lasting : Node → Header
  | .leaf h _ => { h with offset := 0, size := 0 }
  | .branch h _ => h

namespace Forest

/-- The forest without the offsets, sizes and payloads of its leaves. -/
def outline (forest : Forest) : Forest := forest.map Node.lasting fun _ _ => []

theorem leaf?_outline (forest : Forest) (q : Path) :
    forest.outline.leaf? q
      = (forest.leaf? q).map fun e => ({ e.1 with offset := 0, size := 0 }, []) := by
  rw [leaf?, leaf?, outline, get?_map]
  cases forest.get? q with
  | none => rfl
  | some node => cases node <;> rfl

theorem branch?_outline (forest : Forest) (q : Path) :
    forest.outline.branch? q = forest.branch? q := by
  rw [branch?, branch?, outline, get?_map]
  cases forest.get? q with
  | none => rfl
  | some node =>
      cases node with
      | leaf h x => rfl
      | branch h cs =>
          show some (h, Node.tableLengths (Node.mapAll _ _ cs)) = some (h, Node.tableLengths cs)
          rw [Node.tableLengths_mapAll]

end Forest

/-! ## The target's block -/

namespace Bytes

theorem slice?_zero {bytes part : Bytes} {n : Nat} :
    slice? bytes 0 n = some part ↔ n ≤ bytes.length ∧ bytes.take n = part := by
  simp [slice?]

end Bytes

section Rebuild

variable {old payload : Bytes} {target : Header} {moves : List Move}

/-- The bytes before the target are those of the old block. -/
theorem take_rebuildBlock
    (hbehind : ∀ m ∈ moves, target.offset.toNat + payload.length ≤ m.offset)
    (hle : target.offset.toNat ≤ old.length) :
    (rebuildBlock old target payload moves).take target.offset.toNat
      = old.take target.offset.toNat :=
  (Bytes.slice?_zero.mp (slice?_rebuildBlock_before hbehind (Bytes.slice?_zero.mpr ⟨hle, rfl⟩)
    (Nat.le_refl _))).2

/-- The bytes behind a payload of the old length are those of the old block. -/
theorem drop_rebuildBlock_nil (hlen : payload.length = target.size.toNat) :
    (rebuildBlock old target payload []).drop target.stop = old.drop target.stop := by
  have hfront : (Bytes.padTo target.offset.toNat old ++ payload).length = target.stop := by
    rw [List.length_append, Bytes.padTo_length, hlen, Header.stop]
  rw [rebuildBlock_nil, ← hfront, List.drop_left]

end Rebuild

/-! ## The dictionary -/

/-- The descriptor of a block that has got another length. -/
def Descriptor.resized (size : UInt32) (d : Descriptor) : Descriptor :=
  { d with unpackedSize := size }

namespace Archive

/-! ## One part after the other -/

namespace Edited

variable {a b : Archive} {path : Path} {h : Header} {old payload : Bytes} {moves : List Move}
  {block : Block}

/-- Two descriptors are touched, and of each the unpacked size. -/
theorem dictionary (he : Edited a path h payload moves block b) :
    b.dictionary = { a.dictionary with
      blocks := (a.dictionary.blocks.modify (1 + h.blockIndex) (Descriptor.resized
          (UInt32.ofNat (rebuildBlock block.bytes h payload moves).length))).modify 0
        (Descriptor.resized (UInt32.ofNat b.forest.table.length)) } := by
  have hresized (bytes : Bytes) (x : Block) : (x.withBytes bytes).descriptor
      = x.descriptor.resized (UInt32.ofNat bytes.length) := rfl
  rw [Archive.dictionary, Archive.dictionary, he.frame, he.blocks, map_modify (hresized _),
    map_modify (hresized _)]

/-- The first block is the new table. -/
theorem table (he : Edited a path h payload moves block b) :
    b.blocks[0]?.map Block.bytes = some b.forest.table := by
  rw [← List.getElem?_map, he.head_blocks]
  rfl

/-- Without moves every chunk stays at its offset. -/
theorem offset_of_no_moves (he : Edited a path h payload [] block b)
    (htarget : a.forest.leaf? path = some (h, old)) (q : Path) :
    (b.forest.header? q).map Header.offset = (a.forest.header? q).map Header.offset := by
  rw [he.forest, Forest.header?_edited he.plan htarget]
  by_cases hq : q = path
  · rw [if_pos hq, hq, Forest.header?_of_leaf htarget]
    rfl
  · rw [if_neg hq, List.foldl_nil]

section Leaves

variable (he : Edited a path h payload moves block b)
  (hflags : ∀ e ∈ a.forest.walk, e.2.FlagFits) (htarget : a.forest.leaf? path = some (h, old))

include he hflags htarget

theorem leaf?_of_target :
    b.forest.leaf? path = some ({ h with size := UInt32.ofNat payload.length }, payload) := by
  rw [he.forest, Forest.leaf?_edited_target he.plan htarget (he.leaf?_of_moved hflags)]

/-- A leaf that is not stored after the target stays as it is. -/
theorem leaf?_of_not_behind {q : Path} {k : Header} {x : Bytes} (hne : q ≠ path)
    (hq : a.forest.leaf? q = some (k, x)) (hstays : ¬ a.forest.Behind path h q k) :
    b.forest.leaf? q = some (k, x) := by
  rw [he.leaf?_of_untouched hflags htarget, hq]
  rintro (heq | hmem)
  · exact hne heq
  · obtain ⟨m, hm, rfl⟩ := List.mem_map.mp hmem
    obtain ⟨hget, hfollows⟩ := he.plan.following m hm
    have hnode := Forest.leaf?_eq_some.mp hq
    rw [hget, Option.some.injEq] at hnode
    refine hstays (Forest.behind_iff.mpr ⟨m.node, ?_, by rw [hnode]; rfl⟩)
    exact Forest.mem_following.mpr ⟨hget, hfollows⟩

/-- Every leaf but the target keeps all but its offset. -/
theorem leaf?_of_ne {q : Path} {k : Header} {x : Bytes} (hne : q ≠ path)
    (hq : a.forest.leaf? q = some (k, x)) :
    ∃ offset, b.forest.leaf? q = some ({ k with offset }, x) := by
  have hleaves := he.leaf?_of_moved hflags
  rw [he.forest]
  by_cases hmem : q ∈ moves.map Move.path
  · obtain ⟨m, hm, rfl⟩ := List.mem_map.mp hmem
    exact ⟨_, Forest.leaf?_edited_move he.plan htarget hleaves hm hq⟩
  · exact ⟨k.offset, by rw [Forest.leaf?_edited_other he.plan htarget hleaves hne hmem, hq]⟩

/-- Neither the shape of the forest nor any header of a branch changes, and of the headers of leaves
neither types nor flags. -/
theorem outline : b.forest.outline = a.forest.outline := by
  apply Forest.ext_views
  · intro q
    rw [Forest.leaf?_outline, Forest.leaf?_outline]
    exact he.map_leaf? hflags htarget rfl (fun _ _ _ => rfl) q
  · intro q
    rw [Forest.branch?_outline, Forest.branch?_outline, he.branch? hflags htarget]

end Leaves

end Edited

/-! ## All parts together -/

/-- What an edit leaves as it is in an archive where the leaf at `path` has the header `h` and the
payload `old`. -/
structure Spares (a b : Archive) (path : Path) (h : Header) (old payload : Bytes) : Prop where
  outline : b.forest.outline = a.forest.outline
  target : b.forest.leaf? path = some ({ h with size := UInt32.ofNat payload.length }, payload)
  /-- Every other leaf keeps its payload and all of its header but the offset. It also keeps the
  offset, unless it is stored after the target in the same block. -/
  leaves : ∀ q k x, q ≠ path → a.forest.leaf? q = some (k, x) →
    (∃ offset, b.forest.leaf? q = some ({ k with offset }, x))
      ∧ (¬ a.forest.Behind path h q k → b.forest.leaf? q = some (k, x))
  /-- A payload of the old length moves nothing. -/
  offsets : payload.length = old.length →
    ∀ q, (b.forest.header? q).map Header.offset = (a.forest.header? q).map Header.offset
  blocks : ∀ i, i ≠ 0 → i ≠ 1 + h.blockIndex → b.blocks[i]? = a.blocks[i]?
  table : b.blocks[0]?.map Block.bytes = some b.forest.table
  /-- In the block of the target the bytes before the target stay, and if the payload has the old
  length those behind it as well. -/
  block : ∃ x y, a.blocks[1 + h.blockIndex]? = some x ∧ b.blocks[1 + h.blockIndex]? = some y
    ∧ y.bytes.take h.offset.toNat = x.bytes.take h.offset.toNat
    ∧ (payload.length = old.length →
      y.bytes.length = x.bytes.length ∧ y.bytes.drop h.stop = x.bytes.drop h.stop)
  /-- In the dictionary only the unpacked sizes of two blocks change. -/
  dictionary : ∃ size tableSize, b.dictionary = { a.dictionary with
    blocks := (a.dictionary.blocks.modify (1 + h.blockIndex) (Descriptor.resized size)).modify 0
      (Descriptor.resized tableSize) }
  faults : b.faults = a.faults

/-- **An edit changes only what it has to.** Where flags and sizes fit the bodies and every leaf
lies inside its block, replacing the payload of a leaf spares the rest of the archive. -/
theorem setPayload_spares {a b : Archive} {path : Path} {payload : Bytes} (hf : a.forest.Fitting)
    (hwithin : ∀ e ∈ a.forest.walk, e.2.Within a.dataBlocks)
    (hset : a.setPayload path payload = .ok b) :
    ∃ h old, a.forest.leaf? path = some (h, old) ∧ a.Spares b path h old payload := by
  obtain ⟨h, old, -, -, htarget, -, -⟩ := target_of_setPayload hset
  obtain ⟨moves, block, hmoves, he⟩ := edited_by_moves htarget hset
  have hsize := (hf.leaf htarget).2
  -- a payload of the old length brings about no moves
  have hnil : payload.length = old.length → moves = [] := by
    intro hlen
    rw [hlen, ← hsize, Forest.moves_of_same_length] at hmoves
    exact (Except.ok.inj hmoves).symm
  have hstop : h.stop ≤ block.bytes.length := (he.within_before_iff_le rfl).mp
    (hwithin _ (Forest.mem_walk.mpr (Forest.leaf?_eq_some.mp htarget)))
  refine ⟨h, old, htarget, ?_⟩
  constructor
  case outline => exact he.outline hf.flags htarget
  case target => exact he.leaf?_of_target hf.flags htarget
  case leaves =>
    intro q k x hne hq
    exact ⟨he.leaf?_of_ne hf.flags htarget hne hq, he.leaf?_of_not_behind hf.flags htarget hne hq⟩
  case offsets =>
    intro hlen
    rw [hnil hlen] at he
    exact he.offset_of_no_moves htarget
  case blocks => exact fun i => he.block_of_ne
  case table => exact he.table
  case block =>
    refine ⟨block, _, he.found, he.block_of_target, ?_, fun hlen => ?_⟩
    · refine take_rebuildBlock he.plan.le_offset ?_
      rw [Header.stop] at hstop
      omega
    · rw [hnil hlen, Block.withBytes]
      have hlen := hlen.trans hsize.symm
      exact ⟨length_rebuildBlock_nil hlen hstop, drop_rebuildBlock_nil hlen⟩
  case dictionary => exact ⟨_, _, he.dictionary⟩
  case faults => exact he.faults

/-- The second of three leaves that overlap gets one byte more, and in another edit as many as it
had. A leaf of another block lies in a damaged one. -/
theorem setPayload_spares_overlapping :
    let forest : Forest := ⟨[.ofChildren 1 0 0 [.ofPayload 5 0 0 [1, 2, 3, 4, 5],
      .ofPayload 6 0 4 [5, 6, 7], .ofPayload 7 0 6 [7, 8]], .ofPayload 8 0x1000 0 [9]]⟩
    let a : Archive := ⟨{ isCompressed := true }, [⟨⟨0, 60, 60, 0, (0, 0, 0)⟩, forest.table, none⟩,
      ⟨⟨60, 8, 8, 0, (0, 0, 0)⟩, [1, 2, 3, 4, 5, 6, 7, 8], none⟩,
      ⟨⟨68, 7, 2, 0, (0, 0, 0)⟩, [9, 9], some .corrupt⟩], forest⟩
    ∃ b c, a.setPayload ⟨0, [1]⟩ [10, 11, 12, 13] = .ok b
      ∧ a.setPayload ⟨0, [1]⟩ [10, 11, 12] = .ok c
      ∧ a.forest.Fitting ∧ (∀ e ∈ a.forest.walk, e.2.Within a.dataBlocks)
      ∧ a.Spares b ⟨0, [1]⟩ ⟨6, 0, 4, 3⟩ [5, 6, 7] [10, 11, 12, 13]
      ∧ a.Spares c ⟨0, [1]⟩ ⟨6, 0, 4, 3⟩ [5, 6, 7] [10, 11, 12]
      ∧ b.dataBlocks = [[1, 2, 3, 4, 10, 11, 12, 13, 7, 8], [9, 9]]
      ∧ c.dataBlocks = [[1, 2, 3, 4, 10, 11, 12, 8], [9, 9]] := by
  intro forest a
  have hgrown : a.forest.moves ⟨0, [1]⟩ ⟨6, 0, 4, 3⟩ 4
      = .ok [⟨⟨0, [2]⟩, .ofPayload 7 0 6 [7, 8], 8⟩] := by cbv
  have hb : a.setPayload ⟨0, [1]⟩ [10, 11, 12, 13] = .ok _ :=
    setPayload_of_moves rfl rfl rfl rfl (by decide) hgrown
  have hc : a.setPayload ⟨0, [1]⟩ [10, 11, 12] = .ok _ :=
    setPayload_of_moves rfl rfl rfl rfl (by decide) (Forest.moves_of_same_length _ _ ⟨6, 0, 4, 3⟩)
  have hf : a.forest.Fitting := by
    unfold Forest.Fitting
    decide +kernel
  have hwithin : ∀ e ∈ a.forest.walk, e.2.Within a.dataBlocks := by
    have hbacked : ∀ e ∈ a.forest.walk, e.2.Backed a.dataBlocks := by decide +kernel
    exact fun e he => (hbacked e he).within
  refine ⟨_, _, hb, hc, hf, hwithin, ?_, ?_, by decide +kernel, by decide +kernel⟩
  · obtain ⟨h, old, htarget, hspares⟩ := setPayload_spares hf hwithin hb
    cases htarget
    exact hspares
  · obtain ⟨h, old, htarget, hspares⟩ := setPayload_spares hf hwithin hc
    cases htarget
    exact hspares

end Archive

end ChunkArchive
