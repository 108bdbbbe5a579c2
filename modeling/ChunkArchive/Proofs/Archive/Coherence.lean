import ChunkArchive.Proofs.Archive.Repack
import ChunkArchive.Proofs.Archive.Reopen
import ChunkArchive.Proofs.Chunk.Bounds
import ChunkArchive.Proofs.InPlace

/-!
# Coherent archives

An archive is coherent when its forest and its blocks say the same and no two leaves share a byte
(`Archive.Coherent`). Replacing the payload of a leaf that is not empty keeps an archive coherent
(`Archive.Edited.coherent`), whatever the length of the new payload: leaves that stay end
before the target, and all others are placed behind it one after the other.
-/

set_option autoImplicit false

namespace ChunkArchive

/-! ## Leaves apart -/

/-- The ranges of two leaves have no byte in common. -/
def Header.Apart (h k : Header) : Prop :=
  ∀ i, ¬ (h.offset.toNat ≤ i ∧ i < h.stop ∧ k.offset.toNat ≤ i ∧ i < k.stop)

namespace Header

theorem apart_iff {h k : Header} :
    h.Apart k ↔ h.size.toNat = 0 ∨ k.size.toNat = 0 ∨ h.stop ≤ k.offset.toNat
      ∨ k.stop ≤ h.offset.toNat := by
  simp only [Apart, stop]
  constructor
  · intro hapart
    have hlow := hapart (max h.offset.toNat k.offset.toNat)
    omega
  · intro hcases i hi
    omega

instance (h k : Header) : Decidable (h.Apart k) := decidable_of_iff _ apart_iff.symm

theorem Apart.symm {h k : Header} (hapart : h.Apart k) : k.Apart h := by
  intro i hi
  exact hapart i ⟨hi.2.2.1, hi.2.2.2, hi.1, hi.2.1⟩

theorem apart_of_le {h k : Header} (hle : h.stop ≤ k.offset.toNat) : h.Apart k :=
  apart_iff.mpr (Or.inr (Or.inr (Or.inl hle)))

end Header

/-- Leaves of one data block have no byte in common. -/
def Node.Apart : Node → Node → Prop
  | .leaf h _, .leaf k _ => h.blockIndex = k.blockIndex → h.Apart k
  | _, _ => True

instance : DecidableRel Node.Apart
  | .leaf h _, .leaf k _ => inferInstanceAs (Decidable (h.blockIndex = k.blockIndex → h.Apart k))
  | .leaf _ _, .branch _ _ => isTrue trivial
  | .branch _ _, .leaf _ _ => isTrue trivial
  | .branch _ _, .branch _ _ => isTrue trivial

theorem Node.Apart.symm {n m : Node} (hapart : n.Apart m) : m.Apart n := by
  cases n with
  | branch h cs => cases m <;> exact trivial
  | leaf h x =>
      cases m with
      | branch k cs => exact trivial
      | leaf k y => exact fun hblock => (hapart hblock.symm).symm

/-- The leaves of a data block are the same in both forests. -/
def Forest.AgreeOn (index : Nat) (forest other : Forest) : Prop :=
  ∀ q h x, h.blockIndex = index → (other.leaf? q = some (h, x) ↔ forest.leaf? q = some (h, x))

/-! ## Coherence -/

namespace Archive

/-- The blocks that payloads lie in. -/
def dataBlocks (a : Archive) : List Bytes := a.blocks.tail.map Block.bytes

/-- No block is damaged, every chunk has a flag and a size that fit its body, a payload that is in
its data block and a depth within the limit, and no two leaves of a data block overlap. -/
structure Coherent (a : Archive) : Prop where
  undamaged : a.faults = []
  fits : ∀ e ∈ a.forest.walk,
    e.2.FlagFits ∧ e.2.SizeFits ∧ e.2.Backed a.dataBlocks ∧ e.1.depth ≤ maxDepth
  apart : a.forest.walk.Pairwise fun x y => x.2.Apart y.2

/-- The forest and the blocks say the same: every chunk has a flag that fits its body and a payload
that is in its data block, and no two leaves of a data block overlap. Nothing is said of branches,
of depths or of damage. -/
structure InStep (a : Archive) : Prop where
  fits : ∀ e ∈ a.forest.walk, e.2.FlagFits ∧ e.2.Backed a.dataBlocks
  apart : a.forest.walk.Pairwise fun x y => x.2.Apart y.2

namespace Coherent

variable {a : Archive}

theorem inStep (hc : a.Coherent) : a.InStep :=
  ⟨fun e he => ⟨(hc.fits e he).1, (hc.fits e he).2.2.1⟩, hc.apart⟩

theorem regular (hc : a.Coherent) : a.forest.Regular := by
  intro e he
  obtain ⟨hflag, hsize, -, hdepth⟩ := hc.fits e he
  exact ⟨hflag, hsize, hdepth⟩

end Coherent

namespace InStep

variable {a : Archive} {path : Path} {h : Header} {payload : Bytes}

theorem flags (hs : a.InStep) : ∀ e ∈ a.forest.walk, e.2.FlagFits := fun e he => (hs.fits e he).1

theorem flag (hs : a.InStep) (hleaf : a.forest.leaf? path = some (h, payload)) :
    h.hasChildren = false :=
  hs.flags _ (Forest.mem_walk.mpr (Forest.leaf?_eq_some.mp hleaf))

theorem backed (hs : a.InStep) (hleaf : a.forest.leaf? path = some (h, payload)) :
    (Node.leaf h payload).Backed a.dataBlocks :=
  (hs.fits _ (Forest.mem_walk.mpr (Forest.leaf?_eq_some.mp hleaf))).2

theorem size (hs : a.InStep) (hleaf : a.forest.leaf? path = some (h, payload)) :
    h.size.toNat = payload.length :=
  (hs.backed hleaf).sizeFits

/-- Two leaves of one data block, at whatever paths, have no byte in common. -/
theorem leaves_apart (hs : a.InStep) {p q : Path} {h k : Header} {x y : Bytes}
    (hp : a.forest.leaf? p = some (h, x)) (hq : a.forest.leaf? q = some (k, y)) (hne : p ≠ q)
    (hblock : h.blockIndex = k.blockIndex) : h.Apart k := by
  have hsymm : Std.Symm fun x y : Path × Node => x.2.Apart y.2 := ⟨fun _ _ hxy => hxy.symm⟩
  have hp := Forest.mem_walk.mpr (Forest.leaf?_eq_some.mp hp)
  have hq := Forest.mem_walk.mpr (Forest.leaf?_eq_some.mp hq)
  exact hs.apart.forall hp hq (fun heq => hne (congrArg Prod.fst heq)) hblock

/-- It is enough to look at leaves and branches one by one, and at two leaves of a block at a
time. -/
theorem of_views (hleaf : ∀ path h payload, a.forest.leaf? path = some (h, payload) →
      h.hasChildren = false ∧ (Node.leaf h payload).Backed a.dataBlocks)
    (hbranch : ∀ path h n, a.forest.branch? path = some (h, n) → h.hasChildren = true)
    (hapart : ∀ p q h k x y, a.forest.leaf? p = some (h, x) → a.forest.leaf? q = some (k, y) →
      p ≠ q → h.blockIndex = k.blockIndex → h.Apart k) : a.InStep := by
  refine ⟨?_, ?_⟩
  · rintro ⟨path, node⟩ he
    rcases Forest.get?_cases (Forest.mem_walk.mp he) with ⟨h, x, rfl, hx⟩ | ⟨h, cs, rfl, hcs⟩
    · exact hleaf path h x hx
    · exact ⟨hbranch path h _ hcs, trivial⟩
  · refine a.forest.walk_sorted.imp_of_mem fun {x y} hx hy hlt => ?_
    obtain ⟨p, n⟩ := x
    obtain ⟨q, m⟩ := y
    have hne : p ≠ q := by
      rintro rfl
      exact Path.lt_irrefl p hlt
    cases n with
    | branch h cs => cases m <;> exact trivial
    | leaf h x =>
        cases m with
        | branch k cs => exact trivial
        | leaf k y =>
            have hp := Forest.leaf?_eq_some.mpr (Forest.mem_walk.mp hx)
            have hq := Forest.leaf?_eq_some.mpr (Forest.mem_walk.mp hy)
            exact fun hblock => hapart p q h k x y hp hq hne hblock

end InStep

/-! ## One edit -/

/-- What an edit of the leaf at `path` with header `h` does to an archive. -/
structure Edited (a : Archive) (path : Path) (h : Header) (payload : Bytes) (moves : List Move)
    (block : Block) (b : Archive) : Prop where
  found : a.blocks[1 + h.blockIndex]? = some block
  short : payload.length < 2 ^ 32
  plan : a.forest.Plan path h payload.length moves
  frame : b.frame = a.frame
  forest : b.forest = a.forest.edited path payload moves
  blocks : b.blocks = (a.blocks.modify (1 + h.blockIndex)
    (Block.withBytes (rebuildBlock block.bytes h payload moves))).modify 0
      (Block.withBytes b.forest.table)

theorem edited_by_moves {a b : Archive} {path : Path} {h : Header} {old payload : Bytes}
    (htarget : a.forest.leaf? path = some (h, old)) (hset : a.setPayload path payload = .ok b) :
    ∃ moves block, a.forest.moves path h payload.length = .ok moves
      ∧ Edited a path h payload moves block b := by
  have hresolve : a.forest.resolve path = .ok (.leaf h old) := by
    rw [Forest.resolve, Forest.leaf?_eq_some.mp htarget]
  unfold setPayload at hset
  rw [hresolve] at hset
  obtain ⟨_, ⟨⟩, hset⟩ := Outcome.bind_eq_ok.mp hset
  obtain ⟨-, hset⟩ := Outcome.unless_eq_ok.mp hset
  dsimp only at hset
  split at hset
  · cases hset
  · next block hblock =>
      obtain ⟨-, hset⟩ := Outcome.unless_eq_ok.mp hset
      obtain ⟨hshort, hset⟩ := Outcome.unless_eq_ok.mp hset
      obtain ⟨moves, hmoves, hset⟩ := Outcome.bind_eq_ok.mp hset
      obtain rfl := Outcome.pure_eq_ok.mp hset
      exact ⟨moves, block, hmoves, hblock, by omega, Forest.plan_of_moves hmoves, rfl, rfl, rfl⟩

theorem edited_of_setPayload {a b : Archive} {path : Path} {h : Header} {old payload : Bytes}
    (htarget : a.forest.leaf? path = some (h, old)) (hset : a.setPayload path payload = .ok b) :
    ∃ moves block, Edited a path h payload moves block b := by
  obtain ⟨moves, block, -, he⟩ := edited_by_moves htarget hset
  exact ⟨moves, block, he⟩

section Planned

variable {a : Archive} {path : Path} {h : Header} {old payload : Bytes} {block : Block}
  (htarget : a.forest.get? path = some (.leaf h old)) (hflag : h.hasChildren = false)
  (hblock : a.blocks[1 + h.blockIndex]? = some block) (hdamage : block.damage = none)
  (hshort : payload.length < 2 ^ 32)

include htarget hflag hblock hdamage hshort

/-- An edit of a leaf in a sound block is carried out or refused as its moves are. -/
theorem setPayload_eq_map_moves :
    a.setPayload path payload = (a.forest.moves path h payload.length).map fun moves => { a with
      forest := a.forest.edited path payload moves
      blocks := (a.blocks.modify (1 + h.blockIndex)
        (Block.withBytes (rebuildBlock block.bytes h payload moves))).modify 0
          (Block.withBytes (a.forest.edited path payload moves).table) } := by
  have hresolve : a.forest.resolve path = .ok (.leaf h old) := by
    rw [Forest.resolve, htarget]
  have hroom : ¬ 0x100000000 ≤ payload.length := by omega
  unfold setPayload
  rw [hresolve]
  simp only [bind, Except.bind, Node.header, Node.payload?, hflag, hblock, hdamage,
    Option.isNone_some, Option.isSome_none, Bool.or_self, Bool.false_eq_true, if_false, if_neg hroom]
  cases a.forest.moves path h payload.length <;> rfl

theorem setPayload_of_moves {moves : List Move}
    (hmoves : a.forest.moves path h payload.length = .ok moves) :
    a.setPayload path payload = .ok { a with
      forest := a.forest.edited path payload moves
      blocks := (a.blocks.modify (1 + h.blockIndex)
        (Block.withBytes (rebuildBlock block.bytes h payload moves))).modify 0
          (Block.withBytes (a.forest.edited path payload moves).table) } :=
  (setPayload_eq_map_moves htarget hflag hblock hdamage hshort).trans (by rw [hmoves]; rfl)

theorem setPayload_of_moves_refused {e : Error}
    (hmoves : a.forest.moves path h payload.length = .error e) :
    a.setPayload path payload = .error e :=
  (setPayload_eq_map_moves htarget hflag hblock hdamage hshort).trans (by rw [hmoves]; rfl)

end Planned

namespace Edited

variable {a b : Archive} {path : Path} {h : Header} {payload : Bytes} {moves : List Move}
  {block : Block}

/-- Only the block of the target is another one. -/
theorem dataBlocks (he : Edited a path h payload moves block b) (i : Nat) :
    b.dataBlocks[i]? = if i = h.blockIndex then some (rebuildBlock block.bytes h payload moves)
      else a.dataBlocks[i]? := by
  have hget : ∀ c : Archive, c.dataBlocks[i]? = c.blocks[1 + i]?.map Block.bytes := by
    intro c
    rw [Archive.dataBlocks, List.getElem?_map, List.getElem?_tail, Nat.add_comm]
  have hzero : ¬ 0 = 1 + i := by omega
  rw [hget, hget, he.blocks, List.getElem?_modify, List.getElem?_modify]
  by_cases hi : i = h.blockIndex
  · subst hi
    simp [he.found, Block.withBytes, hzero]
  · have hne : ¬ h.blockIndex = i := fun heq => hi heq.symm
    cases a.blocks[1 + i]? <;> simp [hi, hne, hzero]

theorem dataBlock (he : Edited a path h payload moves block b) :
    a.dataBlocks[h.blockIndex]? = some block.bytes := by
  rw [Archive.dataBlocks, List.getElem?_map, List.getElem?_tail, Nat.add_comm, he.found]
  rfl

theorem getD_before (he : Edited a path h payload moves block b) :
    a.dataBlocks[h.blockIndex]?.getD [] = block.bytes := by
  rw [he.dataBlock, Option.getD_some]

theorem getD_after (he : Edited a path h payload moves block b) :
    b.dataBlocks[h.blockIndex]?.getD [] = rebuildBlock block.bytes h payload moves := by
  rw [he.dataBlocks, if_pos rfl, Option.getD_some]

theorem damage (he : Edited a path h payload moves block b) :
    b.blocks.map Block.damage = a.blocks.map Block.damage := by
  have hkeeps (bytes : Bytes) (x : Block) : (x.withBytes bytes).damage = id x.damage := rfl
  rw [he.blocks, map_modify (hkeeps _), map_modify (hkeeps _), List.modify_id, List.modify_id]

theorem faults (he : Edited a path h payload moves block b) : b.faults = a.faults := by
  rw [faults_eq, faults_eq, he.damage]

/-- The block of the target is the rebuilt one. -/
theorem block_of_target (he : Edited a path h payload moves block b) :
    b.blocks[1 + h.blockIndex]?
      = some (block.withBytes (rebuildBlock block.bytes h payload moves)) := by
  have hne : 0 ≠ 1 + h.blockIndex := by omega
  rw [he.blocks, List.getElem?_modify_ne _ _ hne, List.getElem?_modify_eq, he.found]
  rfl

theorem length_blocks (he : Edited a path h payload moves block b) :
    b.blocks.length = a.blocks.length := by
  rw [he.blocks, List.length_modify, List.length_modify]

/-- The first block is the new table. -/
theorem head_blocks (he : Edited a path h payload moves block b) :
    b.blocks.map Block.bytes = b.forest.table :: b.dataBlocks := by
  have hlen : 1 + h.blockIndex < a.blocks.length := by
    by_contra hnot
    have hnone := List.getElem?_eq_none (Nat.le_of_not_lt hnot)
    rw [he.found] at hnone
    cases hnone
  have hblocks := he.blocks
  rw [Archive.dataBlocks]
  cases ha : a.blocks with
  | nil => simp [ha] at hlen
  | cons first others =>
      rw [ha, Nat.add_comm, List.modify_succ_cons, List.modify_zero_cons] at hblocks
      rw [hblocks]
      rfl

/-! ### What the blocks hold after an edit -/

/-- The block of the target is the rebuilt one. -/
theorem backed_iff (he : Edited a path h payload moves block b) {k : Header} {x : Bytes}
    (hblock : k.blockIndex = h.blockIndex) :
    (Node.leaf k x).Backed b.dataBlocks ↔
      Bytes.slice? (rebuildBlock block.bytes h payload moves) k.offset.toNat k.stop = some x := by
  rw [Node.Backed, hblock, he.dataBlocks, if_pos rfl, Option.bind_some]

/-- The block of the target as it was before. -/
theorem backed_before_iff (he : Edited a path h payload moves block b) {k : Header} {x : Bytes}
    (hblock : k.blockIndex = h.blockIndex) :
    (Node.leaf k x).Backed a.dataBlocks ↔
      Bytes.slice? block.bytes k.offset.toNat k.stop = some x := by
  rw [Node.Backed, hblock, he.dataBlock, Option.bind_some]

theorem backed_of_other_block (he : Edited a path h payload moves block b) {k : Header} {x : Bytes}
    (hblock : k.blockIndex ≠ h.blockIndex) :
    (Node.leaf k x).Backed b.dataBlocks ↔ (Node.leaf k x).Backed a.dataBlocks := by
  rw [Node.Backed, Node.Backed, he.dataBlocks, if_neg hblock]

theorem backed_target (he : Edited a path h payload moves block b) :
    (Node.leaf { h with size := UInt32.ofNat payload.length } payload).Backed b.dataBlocks := by
  refine (he.backed_iff (k := { h with size := UInt32.ofNat payload.length }) rfl).mpr ?_
  show Bytes.slice? _ h.offset.toNat (h.offset.toNat + (UInt32.ofNat payload.length).toNat) = _
  rw [UInt32.toNat_ofNat_of_lt' he.short]
  exact slice?_rebuildBlock_target he.plan.le_offset

theorem backed_moved (he : Edited a path h payload moves block b) {m : Move} (hm : m ∈ moves)
    {k : Header} {x : Bytes} (hnode : m.node = .leaf k x) (hblock : k.blockIndex = h.blockIndex)
    (hsize : k.size.toNat = x.length) :
    (Node.leaf { k with offset := UInt32.ofNat m.offset } x).Backed b.dataBlocks := by
  refine (he.backed_iff (k := { k with offset := UInt32.ofNat m.offset }) hblock).mpr ?_
  show Bytes.slice? _ (UInt32.ofNat m.offset).toNat
    ((UInt32.ofNat m.offset).toNat + k.size.toNat) = some x
  rw [he.plan.toNat_offset hm, hsize]
  exact slice?_rebuildBlock_move he.plan.inOrder hm hnode hsize

theorem backed_of_before (he : Edited a path h payload moves block b) {k : Header} {x : Bytes}
    (hblock : k.blockIndex = h.blockIndex) (hbacked : (Node.leaf k x).Backed a.dataBlocks)
    (hle : k.stop ≤ h.offset.toNat) : (Node.leaf k x).Backed b.dataBlocks := by
  have hslice := (he.backed_before_iff hblock).mp hbacked
  exact (he.backed_iff hblock).mpr (slice?_rebuildBlock_before he.plan.le_offset hslice hle)

/-- Where every flag fits its body it is leaves that are moved. -/
theorem moved_leaf_of_flags (he : Edited a path h payload moves block b)
    (hflags : ∀ e ∈ a.forest.walk, e.2.FlagFits) {m : Move} (hm : m ∈ moves) :
    ∃ k x, a.forest.leaf? m.path = some (k, x) ∧ m.node = .leaf k x := by
  obtain ⟨hget, hfollows⟩ := he.plan.following m hm
  rcases Forest.get?_cases hget with ⟨k, x, hnode, hleaf⟩ | ⟨k, cs, hnode, -⟩
  · exact ⟨k, x, hleaf, hnode⟩
  · have hflag := hflags _ (Forest.mem_walk.mpr hget)
    rw [hnode] at hflag hfollows
    have hflag : k.hasChildren = true := hflag
    simp [Forest.follows, Node.header, hflag] at hfollows

/-- The size in the header of a moved leaf is right where those of all leaves are. -/
theorem size_of_moved (he : Edited a path h payload moves block b)
    (hflags : ∀ e ∈ a.forest.walk, e.2.FlagFits)
    (hsizes : ∀ q k x, a.forest.leaf? q = some (k, x) → k.size.toNat = x.length) {m : Move}
    (hm : m ∈ moves) {x : Bytes} (hx : m.node.payload? = some x) :
    m.node.header.size.toNat = x.length := by
  obtain ⟨k, y, hk, hnode⟩ := he.moved_leaf_of_flags hflags hm
  rw [hnode] at hx ⊢
  cases hx
  exact hsizes m.path k x hk

/-- Moved leaves are leaves of the block of the target. -/
theorem block_of_moved (he : Edited a path h payload moves block b) {m : Move} (hm : m ∈ moves)
    {k : Header} {x : Bytes} (hk : a.forest.leaf? m.path = some (k, x)) :
    k.blockIndex = h.blockIndex := by
  obtain ⟨hget, hfollows⟩ := he.plan.following m hm
  rw [Forest.leaf?_eq_some.mp hk, Option.some.injEq] at hget
  rw [← hget] at hfollows
  exact (Forest.follows_leaf.mp hfollows).1.2

theorem leaf?_of_moved (he : Edited a path h payload moves block b)
    (hflags : ∀ e ∈ a.forest.walk, e.2.FlagFits) :
    ∀ m ∈ moves, ∃ e, a.forest.leaf? m.path = some e := by
  intro m hm
  obtain ⟨k, x, hk, -⟩ := he.moved_leaf_of_flags hflags hm
  exact ⟨(k, x), hk⟩

/-- What a leaf holds after an edit: the target the new payload, every other leaf the old one. -/
theorem payload?_edited (he : Edited a path h payload moves block b) {old : Bytes}
    (htarget : a.forest.leaf? path = some (h, old))
    (hleaf : ∀ m ∈ moves, ∃ e, a.forest.leaf? m.path = some e) (q : Path) :
    (b.forest.leaf? q).map Prod.snd
      = if q = path then some payload else (a.forest.leaf? q).map Prod.snd := by
  rw [he.forest]
  by_cases hq : q = path
  · subst hq
    rw [if_pos rfl, Forest.leaf?_edited_target he.plan htarget hleaf]
    rfl
  · rw [if_neg hq]
    by_cases hmem : q ∈ moves.map Move.path
    · obtain ⟨m, hm, rfl⟩ := List.mem_map.mp hmem
      obtain ⟨⟨k, x⟩, hk⟩ := hleaf m hm
      rw [Forest.leaf?_edited_move he.plan htarget hleaf hm hk, hk]
      rfl
    · rw [Forest.leaf?_edited_other he.plan htarget hleaf hq hmem]

section Untouched

variable {old : Bytes} (he : Edited a path h payload moves block b)
  (hflags : ∀ e ∈ a.forest.walk, e.2.FlagFits) (htarget : a.forest.leaf? path = some (h, old))

include he hflags htarget

/-- Branches are as they were. -/
theorem branch? (q : Path) : b.forest.branch? q = a.forest.branch? q := by
  rw [he.forest, Forest.branch?_edited he.plan htarget (he.leaf?_of_moved hflags)]

/-- What an edit touches is in the block of its target. -/
theorem block_of_touched {q : Path} (hq : q = path ∨ q ∈ moves.map Move.path) :
    ∃ k x, a.forest.leaf? q = some (k, x) ∧ k.blockIndex = h.blockIndex := by
  rcases hq with rfl | hq
  · exact ⟨h, old, htarget, rfl⟩
  · obtain ⟨m, hm, rfl⟩ := List.mem_map.mp hq
    obtain ⟨k, x, hk, -⟩ := he.moved_leaf_of_flags hflags hm
    exact ⟨k, x, hk, he.block_of_moved hm hk⟩

/-- All other leaves are as they were. -/
theorem leaf?_of_untouched {q : Path} (hq : ¬ (q = path ∨ q ∈ moves.map Move.path)) :
    b.forest.leaf? q = a.forest.leaf? q := by
  rw [not_or] at hq
  rw [he.forest, Forest.leaf?_edited_other he.plan htarget (he.leaf?_of_moved hflags) hq.1 hq.2]

/-- What does not depend on the offsets of leaves is as before, if it is so for the target with its
new payload. -/
theorem map_leaf? {α : Type} {f : Header × Bytes → α}
    (hftarget : f ({ h with size := UInt32.ofNat payload.length }, payload) = f (h, old))
    (hfmove : ∀ k x offset, f ({ k with offset }, x) = f (k, x)) (q : Path) :
    (b.forest.leaf? q).map f = (a.forest.leaf? q).map f := by
  have hleaves := he.leaf?_of_moved hflags
  by_cases hq : q = path ∨ q ∈ moves.map Move.path
  · rw [he.forest]
    rcases hq with rfl | hq
    · rw [Forest.leaf?_edited_target he.plan htarget hleaves, htarget, Option.map_some,
        Option.map_some, hftarget]
    · obtain ⟨m, hm, rfl⟩ := List.mem_map.mp hq
      obtain ⟨⟨k, x⟩, hk⟩ := hleaves m hm
      rw [Forest.leaf?_edited_move he.plan htarget hleaves hm hk, hk, Option.map_some,
        Option.map_some, hfmove]
  · rw [he.leaf?_of_untouched hflags htarget hq]

/-- An edit leaves the other data blocks alone. -/
theorem agreeOn {index : Nat} (hne : index ≠ h.blockIndex) :
    Forest.AgreeOn index a.forest b.forest := by
  rintro q k x rfl
  constructor
  · intro hq
    rw [he.forest] at hq
    rcases Forest.leaf?_edited_cases he.plan htarget (he.leaf?_of_moved hflags) hq with
      ⟨-, rfl, -⟩ | ⟨m, hm, rfl, k₀, -, hk₀, rfl⟩ | ⟨-, -, hleaf⟩
    · exact absurd rfl hne
    · exact absurd (he.block_of_moved hm hk₀) hne
    · exact hleaf
  · intro hq
    rw [he.leaf?_of_untouched hflags htarget fun htouched => ?_, hq]
    obtain ⟨k', x', hq', hblock⟩ := he.block_of_touched hflags htarget htouched
    rw [hq] at hq'
    cases hq'
    exact hne hblock

theorem leaf?_of_other_block {q : Path} {k : Header} {x : Bytes}
    (hq : a.forest.leaf? q = some (k, x)) (hne : k.blockIndex ≠ h.blockIndex) :
    b.forest.leaf? q = some (k, x) := (he.agreeOn hflags htarget hne q k x rfl).mpr hq

end Untouched

/-- Flags, sizes and depths fit after an edit where they did so before. -/
theorem regular (he : Edited a path h payload moves block b) {old : Bytes}
    (hregular : a.forest.Regular) (htarget : a.forest.leaf? path = some (h, old)) :
    b.forest.Regular := by
  have hleaves := he.leaf?_of_moved fun e he => (hregular e he).1
  rw [he.forest]
  apply Forest.Regular.of_views
  · intro q k x hq
    rcases Forest.leaf?_edited_cases he.plan htarget hleaves hq with
      ⟨rfl, rfl, rfl⟩ | ⟨m, -, rfl, k₀, -, hk₀, rfl⟩ | ⟨-, -, hk⟩
    · obtain ⟨hflag, -, hdepth⟩ := hregular.leaf htarget
      exact ⟨hflag, UInt32.toNat_ofNat_of_lt' he.short, hdepth⟩
    · obtain ⟨hflag, hsize, hdepth⟩ := hregular.leaf hk₀
      exact ⟨hflag, hsize, hdepth⟩
    · exact hregular.leaf hk
  · intro q k n hq
    rw [Forest.branch?_edited he.plan htarget hleaves] at hq
    exact hregular.branch hq

/-! ### Where the leaves lie after an edit -/

section Places

variable {old : Bytes} (hs : a.InStep) (htarget : a.forest.leaf? path = some (h, old))

include hs

theorem moved_leaf (he : Edited a path h payload moves block b) :
    ∀ m ∈ moves, ∃ e, a.forest.leaf? m.path = some e :=
  he.leaf?_of_moved hs.flags

include htarget

/-- Where all leaves that follow the target are moved, a leaf of its block that stays ends before
it: it starts no later, and does not reach the first byte of the target. -/
theorem stop_le_of_stays (hne : old ≠ [])
    (hall : ∀ q node, a.forest.get? q = some node → Forest.follows path h q node = true →
      q ∈ moves.map Move.path) {q : Path} {k : Header} {x : Bytes}
    (hq : a.forest.leaf? q = some (k, x)) (hqpath : q ≠ path) (hblock : k.blockIndex = h.blockIndex)
    (hstays : q ∉ moves.map Move.path) : k.stop ≤ h.offset.toNat := by
  have hsize : 0 < h.size.toNat := by
    rw [hs.size htarget]
    exact List.length_pos_iff.mpr hne
  have hle : k.offset.toNat ≤ h.offset.toNat := by
    by_contra hlt
    rw [Nat.not_le, ← UInt32.lt_iff_toNat_lt] at hlt
    -- it would have been moved
    refine hstays (hall q _ (Forest.leaf?_eq_some.mp hq) ?_)
    simp [Forest.follows, Node.header, hs.flag hq, hblock, hlt]
  have hapart := hs.leaves_apart hq htarget hqpath hblock h.offset.toNat
  simp only [Header.stop] at hapart ⊢
  omega

/-- Without a change of length every leaf keeps its header. -/
theorem leaf?_of_same_length (he : Edited a path h payload moves block b)
    (hlen : payload.length = h.size.toNat) (hmoves : moves = []) {q : Path} {k : Header} {x : Bytes}
    (hq : b.forest.leaf? q = some (k, x)) : ∃ y, a.forest.leaf? q = some (k, y) := by
  rw [he.forest] at hq
  rcases Forest.leaf?_edited_cases he.plan htarget (he.moved_leaf hs) hq with
    ⟨rfl, hk, -⟩ | ⟨m, hm, -⟩ | ⟨-, -, hleaf⟩
  · refine ⟨old, ?_⟩
    rw [hk, hlen, UInt32.ofNat_toNat]
    exact htarget
  · rw [hmoves] at hm
    cases hm
  · exact ⟨x, hleaf⟩

/-- Where a leaf of the target's block lies when leaves have been moved: before the target, at its
place, or at the place of its move. -/
theorem place_cases (he : Edited a path h payload moves block b) (hne : old ≠ [])
    (hall : ∀ q node, a.forest.get? q = some node → Forest.follows path h q node = true →
      q ∈ moves.map Move.path) {q : Path} {k : Header} {x : Bytes}
    (hq : b.forest.leaf? q = some (k, x)) (hblock : k.blockIndex = h.blockIndex) :
    (a.forest.leaf? q = some (k, x) ∧ k.stop ≤ h.offset.toNat)
      ∨ (q = path ∧ k.offset = h.offset ∧ k.stop = h.offset.toNat + payload.length)
      ∨ ∃ m ∈ moves, m.path = q ∧ k.offset.toNat = m.offset ∧ k.stop = m.stop := by
  rw [he.forest] at hq
  rcases Forest.leaf?_edited_cases he.plan htarget (he.moved_leaf hs) hq with
    ⟨rfl, rfl, -⟩ | ⟨m, hm, rfl, k₀, hnode, -, rfl⟩ | ⟨hqpath, hstays, hleaf⟩
  · refine Or.inr (Or.inl ⟨rfl, rfl, ?_⟩)
    show h.offset.toNat + (UInt32.ofNat payload.length).toNat = _
    rw [UInt32.toNat_ofNat_of_lt' he.short]
  · have hoffset := he.plan.toNat_offset hm
    refine Or.inr (Or.inr ⟨m, hm, rfl, hoffset, ?_⟩)
    show (UInt32.ofNat m.offset).toNat + k₀.size.toNat = m.stop
    rw [hoffset, Move.stop, hnode, Node.header]
  · exact Or.inl ⟨hleaf, stop_le_of_stays hs htarget hne hall hleaf hqpath hblock hstays⟩

/-- No two leaves of a block overlap after an edit. -/
theorem leaves_apart (he : Edited a path h payload moves block b) (hne : old ≠ []) {p q : Path}
    {k l : Header} {x y : Bytes} (hp : b.forest.leaf? p = some (k, x))
    (hq : b.forest.leaf? q = some (l, y)) (hpq : p ≠ q) (hblock : k.blockIndex = l.blockIndex) :
    k.Apart l := by
  by_cases hk : k.blockIndex = h.blockIndex
  · -- in the block of the target leaves lie before it, at its place, or behind it as moved
    rcases he.plan.complete with ⟨hlen, hmoves⟩ | hall
    · obtain ⟨x₀, hp⟩ := he.leaf?_of_same_length hs htarget hlen hmoves hp
      obtain ⟨y₀, hq⟩ := he.leaf?_of_same_length hs htarget hlen hmoves hq
      exact hs.leaves_apart hp hq hpq hblock
    · have hl : l.blockIndex = h.blockIndex := hblock.symm.trans hk
      have hbehind := he.plan.behind
      rcases he.place_cases hs htarget hne hall hp hk with
        ⟨hp', hkstop⟩ | ⟨rfl, hkoffset, hkstop⟩ | ⟨m, hm, rfl, hkoffset, hkstop⟩
      · rcases he.place_cases hs htarget hne hall hq hl with
          ⟨hq', -⟩ | ⟨-, hloffset, -⟩ | ⟨n, hn, -, hloffset, -⟩
        · exact hs.leaves_apart hp' hq' hpq hblock
        · exact Header.apart_of_le (by rw [hloffset]; exact hkstop)
        · have := hbehind n hn
          exact Header.apart_of_le (by omega)
      · rcases he.place_cases hs htarget hne hall hq hl with
          ⟨-, hlstop⟩ | ⟨hq', -⟩ | ⟨n, hn, -, hloffset, -⟩
        · exact (Header.apart_of_le (by rw [hkoffset]; exact hlstop)).symm
        · exact absurd hq'.symm hpq
        · have := hbehind n hn
          exact Header.apart_of_le (by omega)
      · have := hbehind m hm
        rcases he.place_cases hs htarget hne hall hq hl with
          ⟨-, hlstop⟩ | ⟨-, -, hlstop⟩ | ⟨n, hn, rfl, hloffset, hlstop⟩
        · exact (Header.apart_of_le (by omega)).symm
        · exact (Header.apart_of_le (by omega)).symm
        · -- of two moved leaves one has been placed before the other
          have hmn : m ≠ n := fun heq => hpq (congrArg Move.path heq)
          rcases pairwise_cases he.plan.inOrder hm hn hmn with hle | hle
          · exact Header.apart_of_le (by omega)
          · exact (Header.apart_of_le (by omega)).symm
  · have hother := he.agreeOn hs.flags htarget hk
    have hp := (hother p k x rfl).mp hp
    have hq := (hother q l y hblock.symm).mp hq
    exact hs.leaves_apart hp hq hpq hblock

/-! ### What the leaves hold after an edit -/

/-- A leaf of the target's block that stays is in the new block where it was in the old one. -/
theorem slice?_of_stays (he : Edited a path h payload moves block b) (hne : old ≠ []) {q : Path}
    {k : Header} {x : Bytes} (hq : a.forest.leaf? q = some (k, x)) (hqpath : q ≠ path)
    (hstays : q ∉ moves.map Move.path) (hblock : k.blockIndex = h.blockIndex)
    (hslice : Bytes.slice? block.bytes k.offset.toNat k.stop = some x) :
    Bytes.slice? (rebuildBlock block.bytes h payload moves) k.offset.toNat k.stop = some x := by
  have hbehind := he.plan.le_offset
  rcases he.plan.complete with ⟨hlen, hmoves⟩ | hall
  · subst hmoves
    -- only bytes of the target are other ones
    rcases Header.apart_iff.mp (hs.leaves_apart hq htarget hqpath hblock) with
      hempty | htarget₀ | hbefore | hbehind'
    · obtain ⟨hstop, hle⟩ := Bytes.slice?_bounds hslice
      have hslice' := (he.backed_before_iff rfl).mp (hs.backed htarget)
      have hk : k.stop = k.offset.toNat := by rw [Header.stop, hempty, Nat.add_zero]
      have hx : x = [] := List.length_eq_zero_iff.mp (by omega)
      rw [hk, hx]
      refine Bytes.slice?_self ?_
      rw [length_rebuildBlock_nil hlen (Bytes.slice?_bounds hslice').2]
      omega
    · have hsize := hs.size htarget
      exact absurd (List.length_eq_zero_iff.mp (by omega)) hne
    · exact slice?_rebuildBlock_before hbehind hslice hbefore
    · exact slice?_rebuildBlock_behind hlen hslice hbehind'
  · have hbefore := stop_le_of_stays hs htarget hne hall hq hqpath hblock hstays
    exact slice?_rebuildBlock_before hbehind hslice hbefore

/-- Every payload is in its block after an edit. -/
theorem backed_leaf (he : Edited a path h payload moves block b) (hne : old ≠ []) {q : Path}
    {k : Header} {x : Bytes} (hq : b.forest.leaf? q = some (k, x)) :
    k.hasChildren = false ∧ (Node.leaf k x).Backed b.dataBlocks := by
  rw [he.forest] at hq
  rcases Forest.leaf?_edited_cases he.plan htarget (he.moved_leaf hs) hq with
    ⟨rfl, rfl, rfl⟩ | ⟨m, hm, rfl, k₀, hnode, hk₀, rfl⟩ | ⟨hqpath, hstays, hleaf⟩
  · -- the target
    have hflag := hs.flag htarget
    exact ⟨hflag, he.backed_target⟩
  · -- a moved leaf
    have hflag := hs.flag hk₀
    exact ⟨hflag, he.backed_moved hm hnode (he.block_of_moved hm hk₀) (hs.size hk₀)⟩
  · -- a leaf that stays
    refine ⟨hs.flag hleaf, ?_⟩
    by_cases hblock : k.blockIndex = h.blockIndex
    · refine (he.backed_iff hblock).mpr ?_
      exact he.slice?_of_stays hs htarget hne hleaf hqpath hstays hblock
        ((he.backed_before_iff hblock).mp (hs.backed hleaf))
    · exact (he.backed_of_other_block hblock).mpr (hs.backed hleaf)

/-- An edit of a leaf that is not empty keeps forest and blocks in step. -/
theorem inStep (he : Edited a path h payload moves block b) (hne : old ≠ []) : b.InStep := by
  refine InStep.of_views (fun q k x hq => he.backed_leaf hs htarget hne hq) (fun q k n hq => ?_)
    fun p q k l x y hp hq hpq hblock => he.leaves_apart hs htarget hne hp hq hpq hblock
  rw [he.branch? hs.flags htarget] at hq
  obtain ⟨cs, hget, -⟩ := Forest.branch?_eq_some.mp hq
  exact hs.flags _ (Forest.mem_walk.mpr hget)

end Places

/-- **An edit of a leaf that is not empty keeps an archive coherent.** -/
theorem coherent {old : Bytes} (hc : a.Coherent) (htarget : a.forest.leaf? path = some (h, old))
    (he : Edited a path h payload moves block b) (hne : old ≠ []) : b.Coherent := by
  have hs := he.inStep hc.inStep htarget hne
  have hregular := he.regular hc.regular htarget
  refine ⟨?_, fun e hmem => ?_, hs.apart⟩
  · rw [he.faults]
    exact hc.undamaged
  · obtain ⟨hflag, hsize, hdepth⟩ := hregular e hmem
    exact ⟨hflag, hsize, (hs.fits e hmem).2, hdepth⟩

end Edited

end Archive

end ChunkArchive
