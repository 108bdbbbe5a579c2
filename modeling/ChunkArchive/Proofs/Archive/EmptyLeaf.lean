import ChunkArchive.Proofs.Archive.Coherence

/-!
# Editing an empty leaf

An empty leaf has no bytes of its own, so that its place in the block is no more than an offset.
When it is given bytes, the leaves at that offset which come later in the walk are moved behind it.
One that holds bytes and comes earlier is not: it stays, and the new payload is written over it
(`Header.Covers`, `Archive.setPayload_empty_covers`). Every other leaf keeps its payload, in its
block and in the forest (`Archive.setPayload_empty`).
-/

set_option autoImplicit false

namespace ChunkArchive

/-! ## Leaves at the place of another -/

/-- The second leaf starts strictly inside the range of the first. -/
def Node.Cuts : Node → Node → Prop
  | .leaf h _, .leaf k _ =>
    h.blockIndex = k.blockIndex ∧ h.offset < k.offset ∧ k.offset.toNat < h.stop
  | _, _ => False

instance : DecidableRel Node.Cuts
  | .leaf h _, .leaf k _ => inferInstanceAs (Decidable
    (h.blockIndex = k.blockIndex ∧ h.offset < k.offset ∧ k.offset.toNat < h.stop))
  | .leaf _ _, .branch _ _ => isFalse id
  | .branch _ _, .leaf _ _ => isFalse id
  | .branch _ _, .branch _ _ => isFalse id

/-- The leaf at `q` holds bytes, starts where the target at `path` does and comes before it in the
walk. -/
def Header.Covers (target : Header) (path q : Path) (k : Header) : Prop :=
  k.blockIndex = target.blockIndex ∧ k.offset = target.offset ∧ k.size ≠ 0 ∧ q < path

namespace Archive

/-! ## Leaves that stay -/

namespace Edited

variable {a b : Archive} {path q : Path} {h k : Header} {payload x : Bytes} {moves : List Move}
  {block : Block}

/-- A leaf that starts before the target and does not reach over it ends before it. -/
theorem backed_of_lt (he : Edited a path h payload moves block b)
    (hblock : k.blockIndex = h.blockIndex) (hbacked : (Node.leaf k x).Backed a.dataBlocks)
    (hcuts : ¬ (Node.leaf k x).Cuts (.leaf h [])) (hlt : k.offset < h.offset) :
    (Node.leaf k x).Backed b.dataBlocks := by
  refine he.backed_of_before hblock hbacked ?_
  by_contra hover
  exact hcuts ⟨hblock, hlt, by omega⟩

/-- Nothing changes in the blocks when an empty leaf stays empty. -/
theorem backed_of_nil (he : Edited a path h [] [] block b) (hempty : h.size = 0)
    (hblock : k.blockIndex = h.blockIndex) (hbacked : (Node.leaf k x).Backed a.dataBlocks)
    (hcuts : ¬ (Node.leaf k x).Cuts (.leaf h [])) : (Node.leaf k x).Backed b.dataBlocks := by
  by_cases hlt : k.offset < h.offset
  · exact he.backed_of_lt hblock hbacked hcuts hlt
  · have hslice := (he.backed_before_iff hblock).mp hbacked
    have hle : h.offset.toNat ≤ k.offset.toNat := by
      rwa [← UInt32.le_iff_toNat_le, ← UInt32.not_lt]
    have hstop : h.stop = h.offset.toNat := by
      rw [Header.stop, hempty, UInt32.toNat_zero, Nat.add_zero]
    have hlen : ([] : Bytes).length = h.size.toNat := by rw [hempty]; rfl
    exact (he.backed_iff hblock).mpr (slice?_rebuildBlock_behind hlen hslice (by omega))

/-- A leaf that is neither moved nor covered keeps its payload where all that follow are moved: it
starts before the target, or is empty as well. -/
theorem backed_of_not_covered (he : Edited a path h payload moves block b) (hempty : h.size = 0)
    (hall : ∀ q node, a.forest.get? q = some node → Forest.follows path h q node = true →
      q ∈ moves.map Move.path)
    (hq : a.forest.get? q = some (.leaf k x)) (hflag : k.hasChildren = false) (hne : q ≠ path)
    (hstays : q ∉ moves.map Move.path) (hblock : k.blockIndex = h.blockIndex)
    (hbacked : (Node.leaf k x).Backed a.dataBlocks) (hcuts : ¬ (Node.leaf k x).Cuts (.leaf h []))
    (huncovered : ¬ h.Covers path q k) : (Node.leaf k x).Backed b.dataBlocks := by
  have hnot : ¬ (h.offset < k.offset ∨ h.size = 0 ∧ k.offset = h.offset ∧ path < q) :=
    fun hfollows => hstays (hall q _ hq (Forest.follows_leaf.mpr ⟨⟨hflag, hblock⟩, hfollows⟩))
  obtain ⟨hle, hbefore⟩ := not_or.mp hnot
  by_cases hlt : k.offset < h.offset
  · exact he.backed_of_lt hblock hbacked hcuts hlt
  · have hoffset : k.offset = h.offset := UInt32.le_antisymm (UInt32.not_lt.mp hle)
      (UInt32.not_lt.mp hlt)
    have hqpath : q < path := by
      rcases Path.lt_or_lt_of_ne hne with hlt | hlt
      · exact hlt
      · exact absurd ⟨hempty, hoffset, hlt⟩ hbefore
    have hsize : k.size = 0 := by
      by_contra hsize
      exact huncovered ⟨hblock, hoffset, hsize, hqpath⟩
    refine he.backed_of_before hblock hbacked ?_
    rw [Header.stop, hsize, hoffset, UInt32.toNat_zero, Nat.add_zero]

/-- A leaf that stays keeps its payload, unless it is covered by a payload that is not empty. -/
theorem backed_of_stays (he : Edited a path h payload moves block b) (hempty : h.size = 0)
    (hnone : payload = [] → moves = []) (hq : a.forest.get? q = some (.leaf k x))
    (hflag : k.hasChildren = false) (hne : q ≠ path) (hstays : q ∉ moves.map Move.path)
    (hbacked : (Node.leaf k x).Backed a.dataBlocks) (hcuts : ¬ (Node.leaf k x).Cuts (.leaf h []))
    (hspared : payload = [] ∨ ¬ h.Covers path q k) : (Node.leaf k x).Backed b.dataBlocks := by
  by_cases hblock : k.blockIndex = h.blockIndex
  · by_cases hnil : payload = []
    · obtain rfl := hnone hnil
      subst hnil
      exact he.backed_of_nil hempty hblock hbacked hcuts
    · rcases he.plan.complete with ⟨hlen, -⟩ | hall
      · rw [hempty, UInt32.toNat_zero] at hlen
        exact absurd (List.length_eq_zero_iff.mp hlen) hnil
      · exact he.backed_of_not_covered hempty hall hq hflag hne hstays hblock hbacked hcuts
          (hspared.resolve_left hnil)
  · exact (he.backed_of_other_block hblock).mpr hbacked

/-- A leaf that has been moved lies behind the target. -/
theorem not_covers_of_moved (he : Edited a path h payload moves block b) (hne : payload ≠ [])
    {m : Move} (hm : m ∈ moves) :
    ¬ h.Covers path q { k with offset := UInt32.ofNat m.offset } := by
  rintro ⟨-, (hoffset : UInt32.ofNat m.offset = h.offset), -, -⟩
  have hle := he.plan.le_offset m hm
  have hpos := List.length_pos_iff.mpr hne
  rw [← he.plan.toNat_offset hm, hoffset] at hle
  omega

/-- A leaf that is covered holds its payload only where that and the new one agree. -/
theorem prefix_of_covers (he : Edited a path h payload moves block b) (hcovers : h.Covers path q k)
    (hbacked : (Node.leaf k x).Backed b.dataBlocks) : payload <+: x ∨ x <+: payload := by
  obtain ⟨hblock, hoffset, -, -⟩ := hcovers
  have hold := (he.backed_iff hblock).mp hbacked
  have hnew : Bytes.slice? (rebuildBlock block.bytes h payload moves) h.offset.toNat
      (h.offset.toNat + payload.length) = some payload := slice?_rebuildBlock_target he.plan.le_offset
  rw [hoffset] at hold
  rcases Nat.le_total payload.length x.length with hle | hle
  · exact Or.inl (Bytes.prefix_of_slice? hnew hold hle)
  · exact Or.inr (Bytes.prefix_of_slice? hold hnew hle)

end Edited

/-! ## The edit -/

/-- An empty payload for an empty target moves nothing. -/
theorem moves_eq_nil {forest : Forest} {path : Path} {target : Header} {moves : List Move}
    (hempty : target.size = 0) (h : forest.moves path target 0 = .ok moves) : moves = [] := by
  have hsame := Forest.moves_of_same_length forest path target
  rw [hempty, UInt32.toNat_zero, h] at hsame
  exact Except.ok.inj hsame

/-- **What an edit of an empty leaf does to the other leaves.** In an archive whose payloads are in
their blocks and where no leaf reaches over the place of the target, every leaf keeps its payload in
the forest and all but the covered ones have it in their block as well. A covered leaf stays where
it is, and its payload is lost unless one of the two payloads is the front of the other. An empty
payload covers nothing. -/
theorem setPayload_empty {a b : Archive} {path : Path} {h : Header} {payload : Bytes}
    (hfits : ∀ e ∈ a.forest.walk, e.2.FlagFits ∧ e.2.SizeFits ∧ e.2.Backed a.dataBlocks)
    (hcuts : ∀ e ∈ a.forest.walk, ¬ e.2.Cuts (.leaf h []))
    (htarget : a.forest.get? path = some (.leaf h []))
    (hset : a.setPayload path payload = .ok b) :
    (∀ q, (b.forest.get? q).bind Node.payload?
        = if q = path then some payload else (a.forest.get? q).bind Node.payload?)
      ∧ ∀ q k x, b.forest.get? q = some (.leaf k x) →
          (payload = [] ∨ ¬ h.Covers path q k → (Node.leaf k x).Backed b.dataBlocks)
            ∧ (h.Covers path q k → a.forest.get? q = some (.leaf k x)
                ∧ ((Node.leaf k x).Backed b.dataBlocks → payload <+: x ∨ x <+: payload)) := by
  have hempty : h.size = 0 := UInt32.toNat_inj.mp (hfits _ (Forest.mem_walk.mpr htarget)).2.1
  have hleaf? := Forest.leaf?_eq_some.mpr htarget
  obtain ⟨moves, block, hmoves, he⟩ := edited_by_moves hleaf? hset
  have hleaves := he.leaf?_of_moved fun e he => (hfits e he).1
  have hnone : payload = [] → moves = [] := by
    rintro rfl
    exact moves_eq_nil hempty hmoves
  constructor
  · intro q
    rw [Forest.payload?_get?, Forest.payload?_get?, he.payload?_edited hleaf? hleaves]
  · intro q k x hq
    have hq := Forest.leaf?_eq_some.mpr hq
    rw [he.forest] at hq
    rcases Forest.leaf?_edited_cases he.plan hleaf? hleaves hq with
      ⟨rfl, rfl, rfl⟩ | ⟨m, hm, rfl, k₀, hnode, hk₀, rfl⟩ | ⟨hne, hstays, hk⟩
    · -- the target
      exact ⟨fun _ => he.backed_target, fun hcovers => absurd hcovers.2.2.2 (Path.lt_irrefl q)⟩
    · -- a moved leaf
      have hfollows := (he.plan.following m hm).2
      rw [hnode] at hfollows
      have hblock := (Forest.follows_leaf.mp hfollows).1.2
      have hsize := (hfits _ (Forest.mem_walk.mpr (Forest.leaf?_eq_some.mp hk₀))).2.1
      have hne : payload ≠ [] := by
        intro hnil
        rw [hnone hnil] at hm
        cases hm
      exact ⟨fun _ => he.backed_moved hm hnode hblock hsize,
        fun hcovers => absurd hcovers (he.not_covers_of_moved hne hm)⟩
    · -- a leaf that stays
      have hget := Forest.leaf?_eq_some.mp hk
      have hmem := Forest.mem_walk.mpr hget
      obtain ⟨hflag, -, hbacked⟩ := hfits _ hmem
      exact ⟨he.backed_of_stays hempty hnone hget hflag hne hstays hbacked (hcuts _ hmem),
        fun hcovers => ⟨hget, he.prefix_of_covers hcovers⟩⟩

/-- The target lies between a leaf at its own offset, which comes first in the walk and is covered,
and one that is moved. -/
theorem setPayload_empty_between :
    let forest (offset : UInt32) (payload : Bytes) : Forest :=
      ⟨[.ofPayload 1 0 0 [11, 11, 11, 11], .ofPayload 2 0 0 payload, .ofPayload 3 0 offset [7]]⟩
    let archive (f : Forest) (data : Bytes) : Archive :=
      ⟨{ isCompressed := false }, [⟨⟨0, 36, 36, 0, (0, 0, 0)⟩, f.table, none⟩,
        ⟨⟨0, UInt32.ofNat data.length, 5, 0, (0, 0, 0)⟩, data, none⟩], f⟩
    let a := archive (forest 4 []) [11, 11, 11, 11, 7]
    let b := archive (forest 8 [10, 10]) [10, 10, 11, 11, 11, 11, 7, 0, 7]
    (∀ e ∈ a.forest.walk, e.2.FlagFits ∧ e.2.SizeFits ∧ e.2.Backed a.dataBlocks)
      ∧ (∀ e ∈ a.forest.walk, ¬ e.2.Cuts (.ofPayload 2 0 0 []))
      ∧ a.forest.get? ⟨1, []⟩ = some (.ofPayload 2 0 0 [])
      ∧ a.setPayload ⟨1, []⟩ [10, 10] = .ok b
      ∧ (Node.ofPayload 3 0 8 [7]).Backed b.dataBlocks
      ∧ ¬ (Node.ofPayload 1 0 0 [11, 11, 11, 11]).Backed b.dataBlocks := by
  intro forest archive a b
  have hfits : ∀ e ∈ a.forest.walk, e.2.FlagFits ∧ e.2.SizeFits ∧ e.2.Backed a.dataBlocks := by
    decide +kernel
  have hcuts : ∀ e ∈ a.forest.walk, ¬ e.2.Cuts (.ofPayload 2 0 0 []) := by decide +kernel
  have hmoves : a.forest.moves ⟨1, []⟩ ⟨2, 0, 0, 0⟩ 2
      = .ok [⟨⟨2, []⟩, .ofPayload 3 0 4 [7], 8⟩] := by cbv
  have hset : a.setPayload ⟨1, []⟩ [10, 10] = .ok b :=
    (setPayload_of_moves rfl rfl rfl rfl (by decide) hmoves).trans (by decide +kernel)
  obtain ⟨-, hleaves⟩ := setPayload_empty hfits hcuts rfl hset
  refine ⟨hfits, hcuts, rfl, hset, (hleaves ⟨2, []⟩ _ _ rfl).1 (Or.inr ?_), ?_⟩
  · exact fun hcovers => absurd hcovers.2.1 (by decide)
  · intro hbacked
    have hcovered := (hleaves ⟨0, []⟩ _ _ rfl).2 ⟨rfl, rfl, by decide, by decide⟩
    exact absurd (hcovered.2 hbacked) (by decide)

/-- An empty leaf behind a leaf with four bytes at the same offset is given four others, which are
written over those of that leaf. -/
theorem setPayload_empty_covers :
    let a := ofForest ⟨[.ofPayload 1 0 0 [11, 11, 11, 11], .ofPayload 2 0 0 []]⟩ false
    a.Coherent
      ∧ (∀ e ∈ a.forest.walk, ∀ f ∈ a.forest.walk, ¬ e.2.Cuts f.2)
      ∧ a.forest.get? ⟨1, []⟩ = some (.ofPayload 2 0 0 [])
      ∧ ∃ b, a.setPayload ⟨1, []⟩ [10, 10, 10, 10] = .ok b
        ∧ (∀ x ∈ b.blocks, x.bytes.length < 2 ^ 32)
        ∧ ¬ ∀ e ∈ b.forest.walk, e.2.Backed b.dataBlocks := by
  intro a
  have hc : a.Coherent := ⟨by decide +kernel, by decide +kernel, by decide +kernel⟩
  have hcuts : ∀ e ∈ a.forest.walk, ∀ f ∈ a.forest.walk, ¬ e.2.Cuts f.2 := by decide +kernel
  have hmoves : a.forest.moves ⟨1, []⟩ ⟨2, 0, 0, 0⟩ 4 = .ok [] := by cbv
  have hset : a.setPayload ⟨1, []⟩ [10, 10, 10, 10] = .ok _ :=
    setPayload_of_moves rfl rfl rfl rfl (by decide) hmoves
  exact ⟨hc, hcuts, rfl, _, hset, by decide +kernel, by decide +kernel⟩

end Archive

end ChunkArchive
