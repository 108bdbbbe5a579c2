import ChunkArchive.Proofs.Archive.History

/-!
# What lies between the leaves

Blocks that are laid out for a forest hold zeros where it has no leaf. An edit moves what lies
behind its target twice: first as a whole, by the difference of lengths, and then leaf by leaf to
multiples of the alignments. Blocks always end with their last leaf, and hold every payload where it
belongs. Between the leaves there is what the first of the two moves has left behind
(`Archive.setPayloads_gaps`).
-/

set_option autoImplicit false

namespace ChunkArchive

namespace Forest

/-! ## Blocks and the leaves in them -/

/-- A leaf of the data block has the byte at position `n`. -/
def Covered (forest : Forest) (index n : Nat) : Prop :=
  ∃ q h x, forest.leaf? q = some (h, x) ∧ h.blockIndex = index ∧ h.offset.toNat ≤ n ∧ n < h.stop

/-- There are zeros wherever no leaf has a byte. -/
def Blank (forest : Forest) (blocks : List Bytes) : Prop :=
  ∀ index n, ¬ forest.Covered index n → (blocks[index]?.getD [])[n]?.getD 0 = 0

/-- There are as many blocks as the leaves ask for, and each ends with its last leaf. -/
structure Reaches (forest : Forest) (blocks : List Bytes) : Prop where
  count : ∀ i, i < blocks.length ↔ ∃ q h x, forest.leaf? q = some (h, x) ∧ i ≤ h.blockIndex
  stop : ∀ i n, n < (blocks[i]?.getD []).length ↔
    ∃ q h x, forest.leaf? q = some (h, x) ∧ h.blockIndex = i ∧ n < h.stop

theorem exists_blockIndex {forest : Forest} {i : Nat} :
    (∃ q h x, forest.leaf? q = some (h, x) ∧ i ≤ h.blockIndex) ↔
      ∃ q j, (forest.leaf? q).map (fun e => e.1.blockIndex) = some j ∧ i ≤ j := by
  constructor
  · rintro ⟨q, h, x, hq, hle⟩
    exact ⟨q, h.blockIndex, by rw [hq]; rfl, hle⟩
  · rintro ⟨q, j, hq, hle⟩
    obtain ⟨⟨h, x⟩, hleaf, rfl⟩ := Option.map_eq_some_iff.mp hq
    exact ⟨q, h, x, hleaf, hle⟩

section Blocks

variable {forest : Forest} {blocks blocks' : List Bytes}

theorem length_eq_of_reaches (h : forest.Reaches blocks) (h' : forest.Reaches blocks') :
    blocks.length = blocks'.length :=
  eq_of_forall_lt_iff fun i => (h.count i).trans (h'.count i).symm

theorem length_getD_of_reaches (h : forest.Reaches blocks) (h' : forest.Reaches blocks') (i : Nat) :
    (blocks[i]?.getD []).length = (blocks'[i]?.getD []).length :=
  eq_of_forall_lt_iff fun n => (h.stop i n).trans (h'.stop i n).symm

theorem map_length_of_reaches (h : forest.Reaches blocks) (h' : forest.Reaches blocks') :
    blocks.map List.length = blocks'.map List.length := by
  refine ext_getD ([] : Bytes).length ?_ fun i => ?_
  · rw [List.length_map, List.length_map, length_eq_of_reaches h h']
  · rw [List.getElem?_map, List.getElem?_map, Option.getD_map, Option.getD_map,
      length_getD_of_reaches h h']

/-- Payloads that are in both make blocks the same where there are leaves. -/
theorem getElem?_of_covered (hbacked : ∀ e ∈ forest.walk, e.2.Backed blocks)
    (hbacked' : ∀ e ∈ forest.walk, e.2.Backed blocks') {i n : Nat} (hcovered : forest.Covered i n) :
    (blocks[i]?.getD [])[n]? = (blocks'[i]?.getD [])[n]? := by
  obtain ⟨q, h, x, hq, rfl, hle, hlt⟩ := hcovered
  have hmem := mem_walk.mpr (leaf?_eq_some.mp hq)
  obtain ⟨j, rfl⟩ := Nat.exists_eq_add_of_le hle
  have hbyte : ∀ {blocks : List Bytes}, (Node.leaf h x).Backed blocks →
      (blocks[h.blockIndex]?.getD [])[h.offset.toNat + j]? = x[j]? := by
    intro blocks hbacked
    obtain ⟨block, hblock, hslice⟩ := Node.backed_leaf_iff.mp hbacked
    obtain ⟨hstop, -, hbytes⟩ := Bytes.slice?_eq_some_iff_getElem?.mp hslice
    rw [hblock, Option.getD_some]
    exact hbytes j (by omega)
  rw [hbyte (hbacked _ hmem), hbyte (hbacked' _ hmem)]

/-- **Blocks are determined by the leaves** if there are zeros between these. -/
theorem eq_of_blank (hreaches : forest.Reaches blocks) (hreaches' : forest.Reaches blocks')
    (hbacked : ∀ e ∈ forest.walk, e.2.Backed blocks)
    (hbacked' : ∀ e ∈ forest.walk, e.2.Backed blocks') (hblank : forest.Blank blocks)
    (hblank' : forest.Blank blocks') : blocks = blocks' := by
  refine ext_getD [] (length_eq_of_reaches hreaches hreaches') fun i => ?_
  refine ext_getD 0 (length_getD_of_reaches hreaches hreaches' i) fun n => ?_
  by_cases hcovered : forest.Covered i n
  · rw [getElem?_of_covered hbacked hbacked' hcovered]
  · rw [hblank i n hcovered, hblank' i n hcovered]

/-! ### Blocks that are laid out -/

variable (hsizes : ∀ q h x, forest.leaf? q = some (h, x) → h.size.toNat = x.length)

include hsizes

theorem reaches_layOut : forest.Reaches (forest.layOut 0) := by
  refine ⟨fun i => lt_length_layOut, fun i n => lt_length_getD_layOut.trans ?_⟩
  constructor
  · rintro ⟨q, h, x, hq, hblock, hn⟩
    exact ⟨q, h, x, hq, hblock, by rwa [Header.stop, hsizes q h x hq]⟩
  · rintro ⟨q, h, x, hq, hblock, hn⟩
    exact ⟨q, h, x, hq, hblock, by rwa [Header.stop, hsizes q h x hq] at hn⟩

theorem blank_layOut : forest.Blank (forest.layOut 0) := by
  intro i n hcovered
  refine getD_layOut_of_outside fun q h x hq hblock => ?_
  by_contra hinside
  refine hcovered ⟨q, h, x, hq, hblock, by omega, ?_⟩
  rw [Header.stop, hsizes q h x hq]
  omega

/-- Leaves that are apart have their payloads in the blocks that are laid out. -/
theorem backed_layOut (hapart : forest.walk.Pairwise fun x y => x.2.Apart y.2) :
    ∀ e ∈ forest.walk, e.2.Backed (forest.layOut 0) := by
  have hleaf : ∀ {q h x}, (q, Node.leaf h x) ∈ forest.walk → h.size.toNat = x.length :=
    fun hmem => hsizes _ _ _ (leaf?_eq_some.mpr (mem_walk.mp hmem))
  have hagree : forest.walk.Pairwise fun e f => e.2.Agree f.2 := by
    refine hapart.imp_of_mem ?_
    rintro ⟨p, n⟩ ⟨q, m⟩ hn hm happart
    cases n with
    | branch h cs => exact trivial
    | leaf h x =>
        cases m with
        | branch k cs => exact trivial
        | leaf k y =>
            intro hblock i hi j hj hsame
            have hh := hleaf hn
            have hk := hleaf hm
            refine absurd ?_ (happart hblock (h.offset.toNat + i))
            rw [Header.stop, Header.stop]
            omega
  rintro ⟨q, node⟩ hmem
  cases node with
  | branch h cs => exact trivial
  | leaf h x =>
      obtain ⟨block, hblock, hslice⟩ := holds_layOut hagree 0 hmem
      refine Node.backed_leaf_iff.mpr ⟨block, hblock, ?_⟩
      rwa [Header.stop, hleaf hmem]

end Blocks

end Forest

/-! ## What an edit leaves behind -/

namespace Archive

/-- Forest and blocks are in step, no leaf is empty, and every block ends with its last leaf. -/
structure Filled (a : Archive) : Prop where
  inStep : a.InStep
  nonempty : ∀ q h x, a.forest.leaf? q = some (h, x) → x ≠ []
  reaches : a.forest.Reaches a.dataBlocks

/-- The blocks are those that are laid out for the forest. -/
def LaidOut (a : Archive) : Prop := a.dataBlocks = a.forest.layOut 0

/-- All that lies behind the target is in the range of a leaf once it has been moved by the
difference of lengths, but for zeros. -/
def LeavesNothing (a : Archive) (path : Path) (payload : Bytes) (b : Archive) : Prop :=
  ∀ h old, a.forest.leaf? path = some (h, old) → ∀ i : Nat,
    (a.dataBlocks[h.blockIndex]?.getD [])[h.stop + i]?.getD 0 ≠ 0 →
    b.forest.Covered h.blockIndex (h.offset.toNat + payload.length + i)

/-- Every leaf behind the target goes as far as the lengths differ, and no farther. -/
def ShiftsAll (a : Archive) (path : Path) (payload : Bytes) (b : Archive) : Prop :=
  ∀ h old q k l x, a.forest.leaf? path = some (h, old) → a.forest.leaf? q = some (k, x) →
    k.blockIndex = h.blockIndex → h.stop ≤ k.offset.toNat → b.forest.leaf? q = some (l, x) →
    l.offset.toNat + old.length = k.offset.toNat + payload.length

namespace Filled

variable {a : Archive}

/-- Lengths, payloads and zeros are all that there is to blocks. -/
theorem laidOut_iff (hf : a.Filled) : a.LaidOut ↔ a.forest.Blank a.dataBlocks := by
  have hsizes : ∀ q h x, a.forest.leaf? q = some (h, x) → h.size.toNat = x.length :=
    fun q h x => hf.inStep.size
  constructor
  · intro h
    rw [h]
    exact Forest.blank_layOut hsizes
  · intro hblank
    exact Forest.eq_of_blank hf.reaches (Forest.reaches_layOut hsizes)
      (fun e he => (hf.inStep.fits e he).2) (Forest.backed_layOut hsizes hf.inStep.apart) hblank
      (Forest.blank_layOut hsizes)

end Filled

namespace Edited

variable {a b : Archive} {path : Path} {h : Header} {old payload : Bytes} {moves : List Move}
  {block : Block}

/-- Leaves stay in their blocks. -/
theorem blockIndex (he : Edited a path h payload moves block b)
    (hflags : ∀ e ∈ a.forest.walk, e.2.FlagFits) (htarget : a.forest.leaf? path = some (h, old))
    (q : Path) : (b.forest.leaf? q).map (fun e => e.1.blockIndex)
      = (a.forest.leaf? q).map fun e => e.1.blockIndex :=
  he.map_leaf? hflags htarget rfl (fun _ _ _ => rfl) q

section Behind

variable (hf : a.Filled) (htarget : a.forest.leaf? path = some (h, old))

include hf htarget

/-- The target in its new length. -/
theorem leaf?_target (he : Edited a path h payload moves block b) :
    ∃ l, b.forest.leaf? path = some (l, payload) ∧ l.blockIndex = h.blockIndex
      ∧ l.offset = h.offset ∧ l.stop = h.offset.toNat + payload.length := by
  refine ⟨{ h with size := UInt32.ofNat payload.length }, ?_, rfl, rfl, ?_⟩
  · rw [he.forest, Forest.leaf?_edited_target he.plan htarget (he.moved_leaf hf.inStep)]
  · show h.offset.toNat + (UInt32.ofNat payload.length).toNat = _
    rw [UInt32.toNat_ofNat_of_lt' he.short]

/-- A moved leaf at its new place. -/
theorem leaf?_move (he : Edited a path h payload moves block b) {m : Move} (hm : m ∈ moves) :
    ∃ k l x, m.node = .leaf k x ∧ a.forest.leaf? m.path = some (k, x)
      ∧ b.forest.leaf? m.path = some (l, x) ∧ l.blockIndex = h.blockIndex ∧ l.size = k.size
      ∧ l.offset.toNat = m.offset := by
  obtain ⟨k, x, hk, hnode⟩ := he.moved_leaf_of_flags hf.inStep.flags hm
  have hblock : k.blockIndex = h.blockIndex := he.block_of_moved hm hk
  refine ⟨k, { k with offset := UInt32.ofNat m.offset }, x, hnode, hk, ?_, hblock, rfl,
    he.plan.toNat_offset hm⟩
  rw [he.forest, Forest.leaf?_edited_move he.plan htarget (he.moved_leaf hf.inStep) hm hk]

/-- A leaf of the target's block either ends before the target and stays, or lies behind it and
goes at least as far as the lengths differ. -/
theorem stays_or_goes (he : Edited a path h payload moves block b)
    (hmoves : a.forest.moves path h payload.length = .ok moves) {q : Path} {k : Header} {x : Bytes}
    (hq : a.forest.leaf? q = some (k, x)) (hne : q ≠ path) (hblock : k.blockIndex = h.blockIndex) :
    (k.stop ≤ h.offset.toNat ∧ b.forest.leaf? q = some (k, x))
      ∨ h.stop ≤ k.offset.toNat ∧ ∃ l, b.forest.leaf? q = some (l, x)
        ∧ l.blockIndex = h.blockIndex ∧ l.size = k.size
        ∧ k.offset.toNat + payload.length ≤ l.offset.toNat + h.size.toNat := by
  have hsize : 0 < h.size.toNat := by
    rw [hf.inStep.size htarget]
    exact List.length_pos_iff.mpr (hf.nonempty _ _ _ htarget)
  have hksize : 0 < k.size.toNat := by
    rw [hf.inStep.size hq]
    exact List.length_pos_iff.mpr (hf.nonempty _ _ _ hq)
  have hapart := Header.apart_iff.mp (hf.inStep.leaves_apart hq htarget hne hblock)
  by_cases hmem : q ∈ moves.map Move.path
  · obtain ⟨m, hm, rfl⟩ := List.mem_map.mp hmem
    obtain ⟨k', l, x', hnode, hk', hl, hlblock, hlsize, hoffset⟩ := he.leaf?_move hf htarget hm
    rw [hq] at hk'
    cases hk'
    -- it is behind the first byte of the target, and so behind the last one
    have hfollows := (he.plan.following m hm).2
    rw [hnode, Forest.follows_leaf, UInt32.lt_iff_toNat_lt] at hfollows
    have hempty : h.size ≠ 0 := fun hzero => by simp [hzero] at hsize
    have hlt := hfollows.2.resolve_right fun hsame => hempty hsame.1
    have hle := Forest.offset_le_of_moves hmoves hm
    rw [hnode, Node.header] at hle
    rw [Header.stop] at hapart ⊢
    exact Or.inr ⟨by omega, l, hl, hlblock, hlsize, by omega⟩
  · have hstay : b.forest.leaf? q = some (k, x) := by
      rw [he.leaf?_of_untouched hf.inStep.flags htarget (not_or.mpr ⟨hne, hmem⟩), hq]
    rcases he.plan.complete with ⟨hlen, -⟩ | hall
    · rcases hapart with hzero | hzero | hbefore | hbehind
      · omega
      · omega
      · exact Or.inl ⟨hbefore, hstay⟩
      · exact Or.inr ⟨hbehind, k, hstay, hblock, rfl, by omega⟩
    · exact Or.inl ⟨stop_le_of_stays hf.inStep htarget (hf.nonempty _ _ _ htarget) hall hq hne
        hblock hmem, hstay⟩

/-- Where something lies behind the target, a leaf goes at least as far as it is moved at first. -/
theorem exists_leaf_behind (he : Edited a path h payload moves block b)
    (hmoves : a.forest.moves path h payload.length = .ok moves)
    (hbehind : h.stop < block.bytes.length) :
    ∃ q l x, b.forest.leaf? q = some (l, x) ∧ l.blockIndex = h.blockIndex
      ∧ h.offset.toNat + payload.length + (block.bytes.length - h.stop) ≤ l.stop := by
  -- the block ends with a leaf
  have hend : block.bytes.length - 1 < (a.dataBlocks[h.blockIndex]?.getD []).length := by
    rw [he.getD_before]
    omega
  obtain ⟨q, k, x, hq, hblock, hk⟩ := (hf.reaches.stop _ _).mp hend
  have hne : q ≠ path := by
    rintro rfl
    rw [htarget] at hq
    cases hq
    omega
  simp only [Header.stop] at hbehind hk
  rcases he.stays_or_goes hf htarget hmoves hq hne hblock with
    ⟨hbefore, -⟩ | ⟨-, l, hl, hlblock, hlsize, hle⟩
  · rw [Header.stop] at hbefore
    omega
  · refine ⟨q, l, x, hl, hlblock, ?_⟩
    simp only [Header.stop]
    rw [hlsize]
    omega

/-- The block of the target ends with its last leaf again. -/
theorem lt_length_rebuilt (he : Edited a path h payload moves block b)
    (hmoves : a.forest.moves path h payload.length = .ok moves) (n : Nat) :
    n < (rebuildBlock block.bytes h payload moves).length ↔ ∃ q k x,
      b.forest.leaf? q = some (k, x) ∧ k.blockIndex = h.blockIndex ∧ n < k.stop := by
  have hs := he.inStep hf.inStep htarget (hf.nonempty _ _ _ htarget)
  constructor
  · intro hn
    rw [lt_length_rebuildBlock fun m hm x =>
      he.size_of_moved hf.inStep.flags (fun q k x => hf.inStep.size) hm] at hn
    rcases hn with hn | ⟨m, hm, hn⟩
    · by_cases hbehind : h.stop < block.bytes.length
      · obtain ⟨q, l, x, hl, hblock, hle⟩ := he.exists_leaf_behind hf htarget hmoves hbehind
        exact ⟨q, l, x, hl, hblock, by omega⟩
      · obtain ⟨l, hl, hblock, -, hstop⟩ := he.leaf?_target hf htarget
        exact ⟨path, l, payload, hl, hblock, by omega⟩
    · obtain ⟨k, l, x, hnode, -, hl, hblock, hsize, hoffset⟩ := he.leaf?_move hf htarget hm
      refine ⟨m.path, l, x, hl, hblock, ?_⟩
      rw [Move.stop, hnode, Node.header] at hn
      rwa [Header.stop, hsize, hoffset]
  · rintro ⟨q, k, x, hq, hblock, hn⟩
    obtain ⟨bytes, hbytes, hslice⟩ := Node.backed_leaf_iff.mp (hs.backed hq)
    rw [hblock, he.dataBlocks, if_pos rfl, Option.some.injEq] at hbytes
    have hstop := (Bytes.slice?_bounds hslice).2
    rw [hbytes]
    omega

/-- No leaf becomes empty. -/
theorem nonempty (he : Edited a path h payload moves block b) (hpayload : payload ≠ []) {q : Path}
    {k : Header} {x : Bytes} (hq : b.forest.leaf? q = some (k, x)) : x ≠ [] := by
  have hheld := he.payload?_edited htarget (he.moved_leaf hf.inStep) q
  rw [hq, Option.map_some] at hheld
  split at hheld
  · obtain rfl : x = payload := Option.some.inj hheld
    exact hpayload
  · obtain ⟨⟨k', x'⟩, hq', hx⟩ := Option.map_eq_some_iff.mp hheld.symm
    obtain rfl : x' = x := hx
    exact hf.nonempty q k' x' hq'

theorem reaches (he : Edited a path h payload moves block b)
    (hmoves : a.forest.moves path h payload.length = .ok moves) :
    b.forest.Reaches b.dataBlocks := by
  refine ⟨fun i => ?_, fun i n => ?_⟩
  · have hlength : b.dataBlocks.length = a.dataBlocks.length := by
      rw [Archive.dataBlocks, Archive.dataBlocks, List.length_map, List.length_map,
        List.length_tail, List.length_tail, he.length_blocks]
    rw [hlength, hf.reaches.count, Forest.exists_blockIndex, Forest.exists_blockIndex]
    simp only [he.blockIndex hf.inStep.flags htarget]
  · rw [he.dataBlocks]
    by_cases hi : i = h.blockIndex
    · rw [if_pos hi, Option.getD_some, he.lt_length_rebuilt hf htarget hmoves, hi]
    · rw [if_neg hi, hf.reaches.stop]
      -- leaves of other blocks are as they were
      have hagree := he.agreeOn hf.inStep.flags htarget hi
      constructor
      · rintro ⟨q, k, x, hq, hblock, hn⟩
        exact ⟨q, k, x, (hagree q k x hblock).mpr hq, hblock, hn⟩
      · rintro ⟨q, k, x, hq, hblock, hn⟩
        exact ⟨q, k, x, (hagree q k x hblock).mp hq, hblock, hn⟩

/-- What makes up the blocks passes from one archive to the next. -/
theorem filled (he : Edited a path h payload moves block b)
    (hmoves : a.forest.moves path h payload.length = .ok moves) (hpayload : payload ≠ []) :
    b.Filled :=
  ⟨he.inStep hf.inStep htarget (hf.nonempty _ _ _ htarget),
    fun _ _ _ => he.nonempty hf htarget hpayload, he.reaches hf htarget hmoves⟩

/-! ### What is left between the leaves -/

/-- No leaf is written over a byte that none has in the end. -/
theorem outside_of_not_covered (he : Edited a path h payload moves block b) {n : Nat}
    (hcovered : ¬ b.forest.Covered h.blockIndex n) {m : Move} (hm : m ∈ moves) {x : Bytes}
    (hx : m.node.payload? = some x) : n < m.offset ∨ m.offset + x.length ≤ n := by
  obtain ⟨k, l, y, hnode, hk, hl, hblock, hsize, hoffset⟩ := he.leaf?_move hf htarget hm
  rw [hnode] at hx
  cases hx
  by_contra hinside
  refine hcovered ⟨m.path, l, x, hl, hblock, by omega, ?_⟩
  rw [Header.stop, hsize, hoffset, hf.inStep.size hk]
  omega

/-- Before the target zeros stay. -/
theorem zero_before (he : Edited a path h payload moves block b)
    (hmoves : a.forest.moves path h payload.length = .ok moves)
    (hblank : a.forest.Blank a.dataBlocks) {n : Nat}
    (hcovered : ¬ b.forest.Covered h.blockIndex n) (hn : n < h.offset.toNat) :
    (b.dataBlocks[h.blockIndex]?.getD [])[n]?.getD 0 = 0 := by
  rw [he.getD_after, getD_rebuildBlock_before
    (fun m hm x hx => he.outside_of_not_covered hf htarget hcovered hm hx) hn, ← he.getD_before]
  -- a leaf that was there is still there
  refine hblank _ _ ?_
  rintro ⟨q, k, x, hq, hblock, hle, hlt⟩
  by_cases hne : q = path
  · rw [hne, htarget] at hq
    cases hq
    omega
  · rcases he.stays_or_goes hf htarget hmoves hq hne hblock with ⟨-, hstay⟩ | ⟨hbehind, -⟩
    · exact hcovered ⟨q, k, x, hstay, hblock, hle, hlt⟩
    · rw [Header.stop] at hbehind
      omega

/-- Behind the target there is what has been moved as a whole. -/
theorem getD_behind (he : Edited a path h payload moves block b) {i : Nat}
    (hcovered : ¬ b.forest.Covered h.blockIndex (h.offset.toNat + payload.length + i)) :
    (b.dataBlocks[h.blockIndex]?.getD [])[h.offset.toNat + payload.length + i]?.getD 0
      = (a.dataBlocks[h.blockIndex]?.getD [])[h.stop + i]?.getD 0 := by
  rw [he.getD_after, he.getD_before]
  exact getD_rebuildBlock_behind
    fun m hm x hx => he.outside_of_not_covered hf htarget hcovered hm hx

/-- **Zeros between the leaves stay zeros exactly if nothing is left behind.** -/
theorem blank_iff (he : Edited a path h payload moves block b)
    (hmoves : a.forest.moves path h payload.length = .ok moves)
    (hblank : a.forest.Blank a.dataBlocks) :
    b.forest.Blank b.dataBlocks ↔ LeavesNothing a path payload b := by
  constructor
  · intro hzeros h' old' htarget' i hbyte
    rw [htarget] at htarget'
    cases htarget'
    by_contra hcovered
    exact hbyte ((he.getD_behind hf htarget hcovered).symm.trans (hzeros _ _ hcovered))
  · intro hnothing index n hcovered
    by_cases hi : index = h.blockIndex
    · subst hi
      by_cases hbefore : n < h.offset.toNat
      · exact he.zero_before hf htarget hmoves hblank hcovered hbefore
      · obtain ⟨l, hl, hblock, hoffset, hstop⟩ := he.leaf?_target hf htarget
        have hle : h.offset.toNat + payload.length ≤ n := by
          by_contra hlt
          exact hcovered ⟨path, l, payload, hl, hblock, by rw [hoffset]; omega, by omega⟩
        obtain ⟨i, rfl⟩ := Nat.exists_eq_add_of_le hle
        rw [he.getD_behind hf htarget hcovered]
        by_contra hbyte
        exact hcovered (hnothing h old htarget i hbyte)
    · rw [he.dataBlocks, if_neg hi]
      refine hblank index n ?_
      rintro ⟨q, k, x, hq, hblock, hinside⟩
      have hq := he.leaf?_of_other_block hf.inStep.flags htarget hq (hblock ▸ hi)
      exact hcovered ⟨q, k, x, hq, hblock, hinside⟩

/-- Leaves that all go equally far take everything with them. -/
theorem leavesNothing_of_shiftsAll (he : Edited a path h payload moves block b)
    (hmoves : a.forest.moves path h payload.length = .ok moves)
    (hblank : a.forest.Blank a.dataBlocks) (hshifts : ShiftsAll a path payload b) :
    LeavesNothing a path payload b := by
  intro h' old' htarget' i hbyte
  rw [htarget] at htarget'
  cases htarget'
  have hcovered : a.forest.Covered h.blockIndex (h.stop + i) :=
    by_contra fun hcovered => hbyte (hblank _ _ hcovered)
  obtain ⟨q, k, x, hq, hblock, hle, hlt⟩ := hcovered
  have hsize := hf.inStep.size htarget
  have hne : q ≠ path := by
    rintro rfl
    rw [htarget] at hq
    cases hq
    omega
  rcases he.stays_or_goes hf htarget hmoves hq hne hblock with
    ⟨hbefore, -⟩ | ⟨hbehind, l, hl, hlblock, hlsize, -⟩
  · simp only [Header.stop] at hbefore hlt
    omega
  · have hshift := hshifts h old q k l x htarget hq hblock hbehind hl
    simp only [Header.stop] at hle hlt
    refine ⟨q, l, x, hl, hlblock, by omega, ?_⟩
    rw [Header.stop, hlsize]
    omega

end Behind

end Edited

/-- One edit with a payload that is not empty. -/
theorem Filled.step {a b : Archive} {path : Path} {payload : Bytes} (hf : a.Filled)
    (hset : a.setPayload path payload = .ok b) (hpayload : payload ≠ []) :
    b.Filled ∧ (a.LaidOut → (b.LaidOut ↔ LeavesNothing a path payload b)
      ∧ (ShiftsAll a path payload b → b.LaidOut)) := by
  obtain ⟨h, old, -, -, htarget, -, -⟩ := target_of_setPayload hset
  obtain ⟨moves, block, hmoves, he⟩ := edited_by_moves htarget hset
  have hb := he.filled hf htarget hmoves hpayload
  refine ⟨hb, fun hlaid => ?_⟩
  have hblank := hf.laidOut_iff.mp hlaid
  rw [hb.laidOut_iff, he.blank_iff hf htarget hmoves hblank]
  exact ⟨Iff.rfl, he.leavesNothing_of_shiftsAll hf htarget hmoves hblank⟩

/-- What is built from a forest with leaves that are apart and not empty. -/
theorem filled_ofForest {forest : Forest} (hbuilt : forest.Built)
    (hpayloads : ∀ e ∈ forest.walk, ∀ x, e.2.payload? = some x → x ≠ [] ∧ x.length < 2 ^ 32)
    (hapart : forest.walk.Pairwise fun x y => x.2.Apart y.2) (compressed : Bool) :
    (ofForest forest compressed).Filled ∧ (ofForest forest compressed).LaidOut := by
  have hblocks := dataBlocks_ofForest forest compressed
  have hmem : ∀ {q h x}, forest.leaf? q = some (h, x) → (q, Node.leaf h x) ∈ forest.walk :=
    fun hq => Forest.mem_walk.mpr (Forest.leaf?_eq_some.mp hq)
  have hsizes : ∀ q h x, forest.leaf? q = some (h, x) → h.size.toNat = x.length :=
    fun q h x hq => hbuilt.sizeFits (hmem hq) (hpayloads _ (hmem hq) x rfl).2
  refine ⟨⟨⟨fun e he => ⟨hbuilt.flags e he, ?_⟩, hapart⟩, fun q h x hq => ?_, ?_⟩, hblocks⟩
  · rw [hblocks]
    exact Forest.backed_layOut hsizes hapart e he
  · exact (hpayloads _ (hmem hq) x rfl).1
  · rw [hblocks]
    exact Forest.reaches_layOut hsizes

/-- **Blocks end with their last leaf and hold every payload, and what lies between the leaves is
what edits have left behind.** After any run of edits that put something into leaves which were
apart and not empty, the blocks have the lengths of those that are laid out for the forest, the same
bytes wherever there is a leaf, and are the same blocks exactly if there are zeros everywhere else.
They are so all the way exactly if no edit leaves anything behind, and so if every edit shifts all
that lies behind its target by the difference of lengths. -/
theorem setPayloads_gaps {forest : Forest} (hbuilt : forest.Built)
    (hfilled : ∀ e ∈ forest.walk, ∀ x, e.2.payload? = some x → x ≠ [] ∧ x.length < 2 ^ 32)
    (hapart : forest.walk.Pairwise fun x y => x.2.Apart y.2) (compressed : Bool)
    {edits : List (Path × Bytes)} (hpayloads : ∀ e ∈ edits, e.2 ≠ []) {b : Archive}
    (hrun : (ofForest forest compressed).setPayloads edits = .ok b) :
    (b.dataBlocks.map List.length = (b.forest.layOut 0).map List.length
        ∧ ∀ i n, b.forest.Covered i n →
          (b.dataBlocks[i]?.getD [])[n]? = ((b.forest.layOut 0)[i]?.getD [])[n]?)
      ∧ (b.LaidOut ↔ b.forest.Blank b.dataBlocks)
      ∧ (Throughout LaidOut (ofForest forest compressed) edits ↔
          OfEachEdit LeavesNothing (ofForest forest compressed) edits)
      ∧ (OfEachEdit ShiftsAll (ofForest forest compressed) edits →
          Throughout LaidOut (ofForest forest compressed) edits) := by
  obtain ⟨hf, hlaid⟩ := filled_ofForest hbuilt hfilled hapart compressed
  have hb : b.Filled :=
    keeps_of_setPayloads hf (fun e he c d hc hset => (hc.step hset (hpayloads e he)).1) hrun
  have hstep : ∀ e ∈ edits, ∀ c d, c.Filled → c.setPayload e.1 e.2 = .ok d → d.Filled
      ∧ (c.LaidOut → (d.LaidOut ↔ LeavesNothing c e.1 e.2 d)
        ∧ (ShiftsAll c e.1 e.2 d → d.LaidOut)) :=
    fun e he c d hc hset => hc.step hset (hpayloads e he)
  have hsizes : ∀ q h x, b.forest.leaf? q = some (h, x) → h.size.toNat = x.length :=
    fun q h x => hb.inStep.size
  refine ⟨⟨?_, fun i n => ?_⟩, hb.laidOut_iff, ?_, ?_⟩
  · exact Forest.map_length_of_reaches hb.reaches (Forest.reaches_layOut hsizes)
  · exact Forest.getElem?_of_covered (fun e he => (hb.inStep.fits e he).2)
      (Forest.backed_layOut hsizes hb.inStep.apart)
  · rw [throughout_iff hf fun e he c d hc hset => ?_]
    · exact and_iff_right hlaid
    · exact ⟨(hstep e he c d hc hset).1, fun hc' => ((hstep e he c d hc hset).2 hc').1⟩
  · refine throughout_of hf hlaid fun e he c d hc hset => ?_
    exact ⟨(hstep e he c d hc hset).1, fun hc' => ((hstep e he c d hc hset).2 hc').2⟩

/-- The first of two leaves grows by four bytes, and the other one moves by as many. -/
theorem setPayloads_gaps_shifted :
    let forest (x : Bytes) (i : UInt32) : Forest :=
      ⟨[.ofPayload 1 0 0 x, .ofPayload 2 0 i [11, 11, 11, 11]]⟩
    let before := forest [1, 1, 1, 1] 4
    let after := forest [10, 10, 10, 10, 10, 10, 10, 10] 8
    let edits : List (Path × Bytes) := [(⟨0, []⟩, [10, 10, 10, 10, 10, 10, 10, 10])]
    let b : Archive := ⟨{ isCompressed := false }, [⟨⟨0, 24, 24, 0, (0, 0, 0)⟩, after.table, none⟩,
      ⟨⟨0, 12, 8, 0, (0, 0, 0)⟩, [10, 10, 10, 10, 10, 10, 10, 10, 11, 11, 11, 11], none⟩], after⟩
    before.Built
      ∧ (∀ e ∈ before.walk, ∀ x, e.2.payload? = some x → x ≠ [] ∧ x.length < 2 ^ 32)
      ∧ (before.walk.Pairwise fun x y => x.2.Apart y.2) ∧ (∀ e ∈ edits, e.2 ≠ [])
      ∧ (ofForest before false).setPayloads edits = .ok b ∧ b.forest.Blank b.dataBlocks
      ∧ OfEachEdit LeavesNothing (ofForest before false) edits := by
  intro forest before after edits b
  have hbuilt : before.Built := List.forall_mem_cons.mpr
    ⟨.leaf 1 0 0 [1, 1, 1, 1], List.forall_mem_singleton.mpr (.leaf 2 0 4 [11, 11, 11, 11])⟩
  have hfilled : ∀ e ∈ before.walk, ∀ x ∈ e.2.payload?, x ≠ [] ∧ x.length < 2 ^ 32 := by decide
  have hapart : before.walk.Pairwise fun x y => x.2.Apart y.2 := by decide
  have hpayloads : ∀ e ∈ edits, e.2 ≠ [] := by decide
  have hmoves : before.moves ⟨0, []⟩ ⟨1, 0, 0, 4⟩ 8
      = .ok [⟨⟨1, []⟩, .ofPayload 2 0 4 [11, 11, 11, 11], 8⟩] := by cbv
  have hset : (ofForest before false).setPayload ⟨0, []⟩ [10, 10, 10, 10, 10, 10, 10, 10] = .ok b :=
    (setPayload_of_moves rfl rfl rfl rfl (by decide) hmoves).trans (by decide +kernel)
  have hrun : (ofForest before false).setPayloads edits = .ok b := by
    rw [setPayloads, List.foldlM_cons, hset]
    rfl
  have hlaid : b.LaidOut := by
    unfold LaidOut
    decide +kernel
  obtain ⟨-, hblank, hiff, -⟩ := setPayloads_gaps hbuilt hfilled hapart false hpayloads hrun
  refine ⟨hbuilt, hfilled, hapart, hpayloads, hrun, hblank.mp hlaid, hiff.mp ⟨?_, ?_⟩⟩
  · unfold LaidOut
    decide +kernel
  · intro c hc
    rw [hset] at hc
    cases hc
    exact hlaid

/-- The first of two leaves grows by one byte, and the other one moves by four. What lay behind the
first has been moved by one, and three bytes of it stay between them. -/
theorem setPayloads_gaps_left :
    let forest (x : Bytes) (i : UInt32) : Forest :=
      ⟨[.ofPayload 1 0 0 x, .ofPayload 2 0 i [11, 11, 11, 11]]⟩
    let before := forest [1, 1, 1, 1] 4
    before.Built ∧ (before.walk.Pairwise fun x y => x.2.Apart y.2)
      ∧ ∃ b, (ofForest before false).setPayloads [(⟨0, []⟩, [10, 10, 10, 10, 10])] = .ok b
        ∧ b.forest = forest [10, 10, 10, 10, 10] 8
        ∧ b.dataBlocks = [[10, 10, 10, 10, 10, 11, 11, 11, 11, 11, 11, 11]]
        ∧ b.forest.layOut 0 = [[10, 10, 10, 10, 10, 0, 0, 0, 11, 11, 11, 11]] := by
  intro forest before
  have hbuilt : before.Built := List.forall_mem_cons.mpr
    ⟨.leaf 1 0 0 [1, 1, 1, 1], List.forall_mem_singleton.mpr (.leaf 2 0 4 [11, 11, 11, 11])⟩
  have hmoves : before.moves ⟨0, []⟩ ⟨1, 0, 0, 4⟩ 5
      = .ok [⟨⟨1, []⟩, .ofPayload 2 0 4 [11, 11, 11, 11], 8⟩] := by cbv
  have hset : (ofForest before false).setPayload ⟨0, []⟩ [10, 10, 10, 10, 10] = .ok _ :=
    setPayload_of_moves rfl rfl rfl rfl (by decide) hmoves
  refine ⟨hbuilt, by decide, _, Outcome.bind_eq_ok.mpr ⟨_, hset, rfl⟩, ?_, ?_, ?_⟩
  all_goals decide +kernel

end Archive

end ChunkArchive
