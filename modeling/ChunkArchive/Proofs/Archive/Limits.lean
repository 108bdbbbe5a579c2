import ChunkArchive.Proofs.Archive.History

/-!
# Sizes in 32 bits

A descriptor has 32 bits for the length of its block. Places of leaves that move are checked against
this, but no other sums are: what is stored is the length without its upper bits. So lengths are
right as long as every edit leaves room for the target and for all that lies behind it in the block
(`Archive.setPayloads_sizes`).
-/

set_option autoImplicit false

namespace ChunkArchive

namespace Archive

/-- Every descriptor has the length of its block, and every leaf ends below 4 GiB. -/
structure Exact (a : Archive) : Prop where
  sizes : ∀ x ∈ a.blocks, x.descriptor.unpackedSize.toNat = x.bytes.length
  stops : ∀ q h x, a.forest.leaf? q = some (h, x) → h.stop < 2 ^ 32

/-- The new payload, and all that lies behind the target when it follows it at once, ends below
4 GiB. -/
def HasRoom (a : Archive) (path : Path) (payload : Bytes) (_ : Archive) : Prop :=
  ∀ h old, a.forest.leaf? path = some (h, old) → h.offset.toNat + payload.length
    + ((a.dataBlocks[h.blockIndex]?.getD []).length - h.stop) < 2 ^ 32

/-- Every descriptor has been given the length of its block, or what 32 bits hold of it. -/
def Measured (a : Archive) : Prop :=
  ∀ x ∈ a.blocks, x.descriptor.unpackedSize = UInt32.ofNat x.bytes.length

/-- The first block is the table of the forest, all that headers say of bodies is right, and there
are fewer headers than would fill 4 GiB. -/
structure Tabled (a : Archive) : Prop where
  measured : a.Measured
  fitting : a.forest.Fitting
  blocks : a.blocks.map Block.bytes = a.forest.table :: a.dataBlocks
  table : a.forest.table.length < 2 ^ 32

theorem measured_ofForest (forest : Forest) (compressed : Bool) :
    (ofForest forest compressed).Measured := by
  intro x hx
  obtain ⟨bytes, -, rfl⟩ := List.mem_map.mp hx
  rfl

/-- An archive is exact if nothing in it is too long. -/
theorem Measured.exact_iff {a : Archive} (hm : a.Measured)
    (hblocks : a.blocks.map Block.bytes = a.forest.table :: a.dataBlocks) :
    a.Exact ↔ a.forest.table.length < 2 ^ 32 ∧ (∀ y ∈ a.dataBlocks, y.length < 2 ^ 32)
      ∧ ∀ q h x, a.forest.leaf? q = some (h, x) → h.stop < 2 ^ 32 := by
  have hsize : ∀ x ∈ a.blocks,
      x.descriptor.unpackedSize.toNat = x.bytes.length ↔ x.bytes.length < 2 ^ 32 := by
    intro x hx
    rw [hm x hx, UInt32.toNat_ofNat']
    omega
  have hall : (∀ x ∈ a.blocks, x.descriptor.unpackedSize.toNat = x.bytes.length)
      ↔ ∀ y ∈ a.blocks.map Block.bytes, y.length < 2 ^ 32 := by
    rw [List.forall_mem_map]
    exact forall_congr' fun x => forall_congr' fun hx => hsize x hx
  rw [hblocks, List.forall_mem_cons] at hall
  constructor
  · rintro ⟨hsizes, hstops⟩
    obtain ⟨htable, hdata⟩ := hall.mp hsizes
    exact ⟨htable, hdata, hstops⟩
  · rintro ⟨htable, hdata, hstops⟩
    exact ⟨hall.mpr ⟨htable, hdata⟩, hstops⟩

/-- A length is too long if there is something at the last position that 32 bits can give. -/
theorem lt_iff_not_last {n : Nat} : n < 2 ^ 32 ↔ ¬ 2 ^ 32 - 1 < n := by omega

/-! ## One edit -/

namespace Edited

variable {a b : Archive} {path : Path} {h : Header} {old payload : Bytes} {moves : List Move}
  {block : Block}

/-- Blocks are measured when they are put in. -/
theorem measured (he : Edited a path h payload moves block b) (hm : a.Measured) : b.Measured := by
  have hmodify : ∀ {blocks : List Block} {i : Nat} {bytes : Bytes},
      (∀ x ∈ blocks, x.descriptor.unpackedSize = UInt32.ofNat x.bytes.length) →
      ∀ x ∈ blocks.modify i (Block.withBytes bytes),
        x.descriptor.unpackedSize = UInt32.ofNat x.bytes.length := by
    intro blocks i bytes hblocks x hx
    obtain ⟨n, hn⟩ := List.mem_iff_getElem?.mp hx
    rw [List.getElem?_modify] at hn
    obtain ⟨y, hy, rfl⟩ := Option.map_eq_some_iff.mp hn
    split
    · rfl
    · exact hblocks y (List.mem_of_getElem? hy)
  intro x hx
  rw [he.blocks] at hx
  exact hmodify (hmodify hm) x hx

theorem tabled (he : Edited a path h payload moves block b) (ht : a.Tabled)
    (htarget : a.forest.leaf? path = some (h, old)) : b.Tabled where
  measured := he.measured ht.measured
  fitting := he.fitting ht.fitting htarget
  blocks := he.head_blocks
  table := by
    rw [he.length_table ht.fitting htarget]
    exact ht.table

/-- Only the target and what lies behind it can make its block too long. -/
theorem length_rebuilt_lt (he : Edited a path h payload moves block b) (ht : a.Tabled) :
    (rebuildBlock block.bytes h payload moves).length < 2 ^ 32 ↔
      h.offset.toNat + payload.length + (block.bytes.length - h.stop) < 2 ^ 32 := by
  rw [lt_iff_not_last, lt_length_rebuildBlock fun m hm x => he.size_of_moved ht.fitting.flags
    (fun q k y hk => (ht.fitting.leaf hk).2) hm, not_or, ← lt_iff_not_last]
  refine and_iff_left ?_
  rintro ⟨m, hm, hlast⟩
  have hstop := (he.plan.behind m hm).2
  omega

/-- Only the target can end too far behind. -/
theorem stop_lt (he : Edited a path h payload moves block b) (ht : a.Tabled)
    (htarget : a.forest.leaf? path = some (h, old))
    (hroom : h.offset.toNat + payload.length < 2 ^ 32)
    (hstops : ∀ q k x, a.forest.leaf? q = some (k, x) → k.stop < 2 ^ 32) {q : Path} {k : Header}
    {x : Bytes} (hq : b.forest.leaf? q = some (k, x)) : k.stop < 2 ^ 32 := by
  rw [he.forest] at hq
  rcases Forest.leaf?_edited_cases he.plan htarget (he.leaf?_of_moved ht.fitting.flags) hq with
    ⟨rfl, rfl, rfl⟩ | ⟨m, hm, rfl, k₀, hnode, -, rfl⟩ | ⟨-, -, hleaf⟩
  · show h.offset.toNat + (UInt32.ofNat x.length).toNat < 2 ^ 32
    rwa [UInt32.toNat_ofNat_of_lt' he.short]
  · have hstop := (he.plan.behind m hm).2
    show (UInt32.ofNat m.offset).toNat + k₀.size.toNat < 2 ^ 32
    rw [he.plan.toNat_offset hm]
    rwa [Move.stop, hnode] at hstop
  · exact hstops q k x hleaf

theorem hasRoom_iff (he : Edited a path h payload moves block b)
    (htarget : a.forest.leaf? path = some (h, old)) : HasRoom a path payload b ↔
      h.offset.toNat + payload.length + (block.bytes.length - h.stop) < 2 ^ 32 := by
  rw [← he.getD_before]
  constructor
  · exact fun hroom => hroom h old htarget
  · intro hroom h' old' htarget'
    rw [htarget] at htarget'
    cases htarget'
    exact hroom

/-- **Lengths stay right exactly if there is room.** -/
theorem exact_iff (he : Edited a path h payload moves block b) (ht : a.Tabled)
    (htarget : a.forest.leaf? path = some (h, old)) (hexact : a.Exact) :
    b.Exact ↔ HasRoom a path payload b := by
  obtain ⟨-, hdata, hstops⟩ := (ht.measured.exact_iff ht.blocks).mp hexact
  have hb := he.tabled ht htarget
  rw [hb.measured.exact_iff hb.blocks, he.hasRoom_iff htarget, ← he.length_rebuilt_lt ht]
  constructor
  · rintro ⟨-, hlengths, -⟩
    have hrebuilt := he.dataBlocks h.blockIndex
    rw [if_pos rfl] at hrebuilt
    exact hlengths _ (List.mem_of_getElem? hrebuilt)
  · intro hlength
    have hroom := (he.length_rebuilt_lt ht).mp hlength
    refine ⟨hb.table, fun y hy => ?_, fun q k x => he.stop_lt ht htarget (by omega) hstops⟩
    obtain ⟨i, hi⟩ := List.mem_iff_getElem?.mp hy
    rw [he.dataBlocks] at hi
    split at hi
    · obtain rfl := Option.some.inj hi
      exact hlength
    · exact hdata y (List.mem_of_getElem? hi)

end Edited

/-! ## The beginning -/

section Beginning

variable {forest : Forest} {compressed : Bool}

/-- What is built from a forest is exact if the table and all leaves end below 4 GiB. -/
theorem exact_ofForest (hbuilt : forest.Built) :
    (ofForest forest compressed).Exact ↔ forest.table.length < 2 ^ 32
      ∧ ∀ q h x, forest.leaf? q = some (h, x) → h.offset.toNat + x.length < 2 ^ 32 := by
  rw [(measured_ofForest forest compressed).exact_iff rfl, dataBlocks_ofForest]
  refine and_congr_right fun _ => ?_
  constructor
  · rintro ⟨hdata, -⟩ q h x hq
    have hlt : h.blockIndex < (forest.layOut 0).length :=
      Forest.lt_length_layOut.mpr ⟨q, h, x, hq, Nat.le_refl _⟩
    have hshort := hdata _ (List.getElem_mem hlt)
    rw [lt_iff_not_last] at hshort ⊢
    intro hlast
    have hlong := Forest.lt_length_getD_layOut.mpr ⟨q, h, x, hq, rfl, hlast⟩
    rw [List.getElem?_eq_getElem hlt, Option.getD_some] at hlong
    exact hshort hlong
  · intro hleaves
    refine ⟨fun y hy => ?_, fun q h x hq => ?_⟩
    · obtain ⟨i, hi⟩ := List.mem_iff_getElem?.mp hy
      rw [lt_iff_not_last, ← Option.getD_some (a := y) (b := []), ← hi]
      intro hlast
      obtain ⟨q, h, x, hq, -, hx⟩ := Forest.lt_length_getD_layOut.mp hlast
      exact lt_iff_not_last.mp (hleaves q h x hq) hx
    · -- a size in 32 bits is no more than the length
      have hsize : h.size = UInt32.ofNat x.length :=
        (hbuilt.of_mem_walk (Forest.mem_walk.mpr (Forest.leaf?_eq_some.mp hq))).size_eq
      have hle : h.size.toNat ≤ x.length := by
        rw [hsize, UInt32.toNat_ofNat']
        exact Nat.mod_le _ _
      have hleaf := hleaves q h x hq
      rw [Header.stop]
      omega

theorem tabled_ofForest (hbuilt : forest.Built) (hexact : (ofForest forest compressed).Exact) :
    (ofForest forest compressed).Tabled := by
  obtain ⟨htable, hleaves⟩ := (exact_ofForest hbuilt).mp hexact
  refine ⟨measured_ofForest forest compressed, fun e he => ?_, rfl, htable⟩
  refine ⟨hbuilt.flags e he, hbuilt.sizeFits he (Forest.bodyLength_lt htable ?_ he)⟩
  rintro ⟨q, node⟩ hmem x hx
  cases node with
  | branch h cs => cases hx
  | leaf h y =>
      cases hx
      have hleaf := hleaves q h x (Forest.leaf?_eq_some.mpr (Forest.mem_walk.mp hmem))
      omega

end Beginning

/-- **Lengths are right as long as there is room.** Whatever the forest that an archive is built
from and whatever edits it goes through, each descriptor has the length of its block in 32 bits.
This is the length, and all leaves end below 4 GiB, all the way through, exactly if the table and
all leaves do so in the beginning and every edit that is carried out has room. -/
theorem setPayloads_sizes {forest : Forest} (hbuilt : forest.Built) (compressed : Bool)
    (edits : List (Path × Bytes)) :
    (∀ b, (ofForest forest compressed).setPayloads edits = .ok b → b.Measured)
      ∧ (Throughout Exact (ofForest forest compressed) edits ↔
        (forest.table.length < 2 ^ 32
          ∧ ∀ q h x, forest.leaf? q = some (h, x) → h.offset.toNat + x.length < 2 ^ 32)
        ∧ OfEachEdit HasRoom (ofForest forest compressed) edits) := by
  refine ⟨fun b hrun => ?_, ?_⟩
  · refine keeps_of_setPayloads (measured_ofForest forest compressed) ?_ hrun
    intro e he c d hc hset
    obtain ⟨h, old, moves, block, -, -, hedited⟩ := target_of_setPayload hset
    exact hedited.measured hc
  · rw [← exact_ofForest hbuilt]
    by_cases hexact : (ofForest forest compressed).Exact
    · refine throughout_iff (tabled_ofForest hbuilt hexact) fun e he c d hc hset => ?_
      obtain ⟨h, old, moves, block, htarget, -, hedited⟩ := target_of_setPayload hset
      exact ⟨hedited.tabled hc htarget, hedited.exact_iff hc htarget⟩
    · -- then neither side holds
      refine iff_of_false (fun hall => hexact ?_) fun hboth => hexact hboth.1
      cases edits with
      | nil => exact hall
      | cons e edits => exact hall.1

/-- A leaf that grows has room, and so has the one behind it. -/
theorem setPayloads_sizes_room :
    let forest : Forest := ⟨[.ofPayload 1 0 0 [1, 2], .ofPayload 2 0 4 [3]]⟩
    let edits : List (Path × Bytes) := [(⟨0, []⟩, [9, 9, 9, 9, 9])]
    forest.Built ∧ Throughout Exact (ofForest forest true) edits := by
  intro forest edits
  have hbuilt : forest.Built := List.forall_mem_cons.mpr
    ⟨.leaf 1 0 0 [1, 2], List.forall_mem_singleton.mpr (.leaf 2 0 4 [3])⟩
  refine ⟨hbuilt, (setPayloads_sizes hbuilt true edits).2.mpr ⟨⟨by decide, ?_⟩, ?_⟩⟩
  · intro q h x hq
    have hall : ∀ e ∈ forest.walk,
        e.2.header.offset.toNat + (e.2.payload?.getD []).length < 2 ^ 32 := by decide
    exact hall _ (Forest.mem_walk.mpr (Forest.leaf?_eq_some.mp hq))
  · intro b hb
    refine ⟨fun h old htarget => ?_, trivial⟩
    have hleaf : (ofForest forest true).forest.leaf? ⟨0, []⟩ = some (⟨1, 0, 0, 2⟩, [1, 2]) := rfl
    rw [hleaf] at htarget
    cases htarget
    decide +kernel

/-- A leaf of one byte at the last offset there is makes a block of 4 GiB, and the descriptor says
that it is empty. A leaf that ends just below 4 GiB is given another byte, and ends at it. -/
theorem setPayloads_sizes_full :
    let forest (offset : UInt32) : Forest := ⟨[.ofPayload 1 0 offset [1]]⟩
    ((forest 0xFFFFFFFF).Built ∧ ∃ x ∈ (ofForest (forest 0xFFFFFFFF) false).blocks,
        x.bytes.length = 2 ^ 32 ∧ x.descriptor.unpackedSize = 0)
      ∧ (ofForest (forest 0xFFFFFFFE) false).Exact
      ∧ ∃ b h, (ofForest (forest 0xFFFFFFFE) false).setPayload ⟨0, []⟩ [1, 2] = .ok b
        ∧ b.forest.leaf? ⟨0, []⟩ = some (h, [1, 2]) ∧ h.stop = 2 ^ 32 := by
  intro forest
  have hbuilt : ∀ offset, (forest offset).Built :=
    fun offset => List.forall_mem_singleton.mpr (.leaf 1 0 offset [1])
  refine ⟨⟨hbuilt _, ?_⟩, (exact_ofForest (hbuilt _)).mpr ⟨by decide, fun q h x hq => ?_⟩, ?_⟩
  · have hblocks : (ofForest (forest 0xFFFFFFFF) false).dataBlocks
        = [Bytes.overwrite [] 0xFFFFFFFF [1]] := dataBlocks_ofForest _ false
    have hlength : (Bytes.overwrite [] 0xFFFFFFFF [1]).length = 2 ^ 32 := by
      rw [Bytes.length_overwrite]
      rfl
    obtain ⟨x, hx, hbytes⟩ := List.mem_map.mp (hblocks ▸ List.mem_singleton_self _)
    have hmem := List.mem_of_mem_tail hx
    refine ⟨x, hmem, by rw [hbytes, hlength], ?_⟩
    rw [measured_ofForest _ false x hmem, hbytes, hlength]
    rfl
  · have hall : ∀ e ∈ (forest 0xFFFFFFFE).walk,
        e.2.header.offset.toNat + (e.2.payload?.getD []).length < 2 ^ 32 := by decide
    exact hall _ (Forest.mem_walk.mpr (Forest.leaf?_eq_some.mp hq))
  · have hmoves : (forest 0xFFFFFFFE).moves ⟨0, []⟩ ⟨1, 0, 0xFFFFFFFE, 1⟩ 2 = .ok [] := by cbv
    exact ⟨_, _, setPayload_of_moves rfl rfl rfl rfl (by decide) hmoves, rfl, rfl⟩

end Archive

end ChunkArchive
