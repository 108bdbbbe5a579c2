import ChunkArchive.Proofs.Archive.InPlace

/-!
# Edits of different blocks

Leaves of different data blocks do not get in each other's way. The plan of an edit depends on one
block and on the leaves in it (`Archive.planEdit_congr`), and an edit changes no leaf of another
block. So of two calls for leaves in different blocks each is answered as if it were the first, and
the archive in the end is the same in either order (`Archive.call_comm`).
-/

set_option autoImplicit false

namespace ChunkArchive

/-! ## Forests that agree about a data block -/

namespace Forest

namespace AgreeOn

variable {forest other : Forest} {path : Path} {target : Header} {size : Nat}

theorem symm {index : Nat} (h : AgreeOn index forest other) : AgreeOn index other forest :=
  fun q k x hblock => (h q k x hblock).symm

/-- Where flags fit it is leaves of its data block that follow a target. -/
theorem get?_of_follows (h : AgreeOn target.blockIndex forest other) (hf : forest.Fitting)
    {q : Path} {node : Node} (hget : forest.get? q = some node)
    (hfollows : follows path target q node = true) : other.get? q = some node := by
  rcases get?_cases hget with ⟨k, x, rfl, hleaf⟩ | ⟨k, cs, rfl, hbranch⟩
  · have hblock := (follows_leaf.mp hfollows).1.2
    exact leaf?_eq_some.mp ((h q k x hblock).mpr hleaf)
  · have hflag := (hf.branch hbranch).1
    simp [follows, Node.header, hflag] at hfollows

/-- The same leaves follow a target, in the same order. -/
theorem following (h : AgreeOn target.blockIndex forest other) (hf : forest.Fitting)
    (hg : other.Fitting) (path : Path) :
    other.following path target = forest.following path target := by
  have hasymm : Std.Antisymm fun x y : Path × Node => x.1 < y.1 :=
    ⟨fun _ _ hxy hyx => absurd hyx (List.lt_asymm hxy)⟩
  have hirrefl : Std.Irrefl fun x y : Path × Node => x.1 < y.1 := ⟨fun x => Path.lt_irrefl x.1⟩
  -- walks are in the order of the paths, and so is what is taken from them
  refine congrArg (List.mergeSort · packedBefore) ?_
  refine List.Pairwise.eq_of_mem_iff (r := fun x y => x.1 < y.1) (other.walk_sorted.filter _)
    (forest.walk_sorted.filter _) fun e => ?_
  rw [List.mem_filter, List.mem_filter, mem_walk, mem_walk]
  constructor
  · exact fun ⟨hget, hfollows⟩ => ⟨h.symm.get?_of_follows hg hget hfollows, hfollows⟩
  · exact fun ⟨hget, hfollows⟩ => ⟨h.get?_of_follows hf hget hfollows, hfollows⟩

theorem moves (h : AgreeOn target.blockIndex forest other) (hf : forest.Fitting)
    (hg : other.Fitting) (path : Path) (size : Nat) :
    other.moves path target size = forest.moves path target size := by
  rw [Forest.moves, Forest.moves, h.following hf hg]

end AgreeOn

/-! ## Edits that touch different leaves -/

section Edited

variable {forest other : Forest} {path : Path} {h : Header} {old payload : Bytes}
  {moves : List Move}

/-- What becomes of a leaf depends on this leaf alone. -/
theorem leaf?_edited_congr (hplan : forest.Plan path h payload.length moves)
    (hplan' : other.Plan path h payload.length moves)
    (htarget : forest.leaf? path = some (h, old)) (htarget' : other.leaf? path = some (h, old))
    (hleaf : ∀ m ∈ moves, ∃ e, forest.leaf? m.path = some e)
    (hleaf' : ∀ m ∈ moves, ∃ e, other.leaf? m.path = some e) {q : Path}
    (hq : other.leaf? q = forest.leaf? q) :
    (other.edited path payload moves).leaf? q = (forest.edited path payload moves).leaf? q := by
  by_cases hpath : q = path
  · rw [hpath, leaf?_edited_target hplan htarget hleaf,
      leaf?_edited_target hplan' htarget' hleaf']
  · by_cases hmem : q ∈ moves.map Move.path
    · obtain ⟨m, hm, rfl⟩ := List.mem_map.mp hmem
      obtain ⟨⟨k, x⟩, hk⟩ := hleaf m hm
      rw [leaf?_edited_move hplan htarget hleaf hm hk,
        leaf?_edited_move hplan' htarget' hleaf' hm (hq.trans hk)]
    · rw [leaf?_edited_other hplan htarget hleaf hpath hmem,
        leaf?_edited_other hplan' htarget' hleaf' hpath hmem, hq]

end Edited

end Forest

namespace Archive

/-! ## Plans in other archives -/

section Plans

variable {a b : Archive} {path : Path} {h : Header} {old payload : Bytes}

/-- The plan of an edit of a leaf. -/
theorem planEdit_of_leaf (hf : a.forest.Fitting) (hleaf : a.forest.leaf? path = some (h, old))
    (payload : Bytes) :
    a.planEdit path payload
      = if a.faults.any (·.1 = 1 + h.blockIndex) then
          .error (.refused (.damagedBlock (1 + h.blockIndex)))
        else match a.blocks[1 + h.blockIndex]? with
          | none => .error (.refused (.format (.chunkInMissingBlock path.toText (1 + h.blockIndex))))
          | some block =>
              if 0x100000000 ≤ payload.length then
                .error (.refused (.format (.payloadTooLarge payload.length)))
              else match a.forest.moves path h payload.length with
                | .error e => .error (.refused e)
                | .ok moves => .ok ⟨path, payload, moves, 1 + h.blockIndex,
                    rebuildBlock block.bytes h payload moves⟩ := by
  have hresolve : a.forest.resolve path = .ok (.leaf h old) := by
    rw [Forest.resolve, Forest.leaf?_eq_some.mp hleaf]
  have hkind : (h.hasChildren || (Node.leaf h old).payload?.isNone) = false := by
    rw [(hf.leaf hleaf).1]
    rfl
  unfold planEdit
  rw [hresolve]
  show (if (h.hasChildren || (Node.leaf h old).payload?.isNone) = true then _ else _) = _
  rw [hkind, if_neg Bool.false_ne_true]
  show (if a.faults.any (·.1 = 1 + h.blockIndex) = true then _ else _) = _
  refine if_congr Iff.rfl rfl ?_
  show (match a.blocks[1 + h.blockIndex]? with | none => _ | some block => _) = _
  cases a.blocks[1 + h.blockIndex]? with
  | none => rfl
  | some block =>
      refine if_congr Iff.rfl rfl ?_
      cases hmoves : a.forest.moves path h payload.length with
      | error e =>
          simp only [Node.header, hmoves]
          rfl
      | ok moves =>
          have hplan := Forest.plan_of_moves hmoves
          simp only [Node.header, hmoves]
          show Except.bind (a.forest.rebuild path block.bytes payload moves) _ = _
          rw [Forest.rebuild_eq hleaf (ofLeaves_of_plan hf hplan)]
          rfl

/-- **What the plan of an edit depends on**: its data block and the leaves in it, and which blocks
are damaged. -/
theorem planEdit_congr (ha : a.forest.Fitting) (hb : b.forest.Fitting)
    (hleaf : a.forest.leaf? path = some (h, old))
    (hdamage : b.blocks.map Block.damage = a.blocks.map Block.damage)
    (hblock : b.blocks[1 + h.blockIndex]? = a.blocks[1 + h.blockIndex]?)
    (hagree : Forest.AgreeOn h.blockIndex a.forest b.forest) (payload : Bytes) :
    b.planEdit path payload = a.planEdit path payload := by
  have hleaf' : b.forest.leaf? path = some (h, old) := (hagree path h old rfl).mpr hleaf
  have hfaults : b.faults = a.faults := by rw [faults_eq, hdamage, ← faults_eq]
  rw [planEdit_of_leaf ha hleaf, planEdit_of_leaf hb hleaf', hfaults, hblock, hagree.moves ha hb]

/-- An edit that has been planned. -/
theorem edited_of_planEdit {e : Edit} (hf : a.forest.Fitting)
    (hleaf : a.forest.leaf? path = some (h, old)) (hplan : a.planEdit path payload = .ok e) :
    ∃ block, Edited a path h payload e.moves block (e.onto a) := by
  rw [planEdit_of_leaf hf hleaf] at hplan
  split at hplan
  · cases hplan
  · split at hplan
    · cases hplan
    · next block hblock =>
        split at hplan
        · cases hplan
        · next hshort =>
            split at hplan
            · cases hplan
            · next moves hmoves =>
                cases hplan
                exact ⟨block, hblock, by omega, Forest.plan_of_moves hmoves, rfl, rfl, rfl⟩

end Plans

/-! ## Edits in either order -/

/-- Blocks other than the first are rebuilt in either order, the first one anew each time. -/
theorem modify_either_order {i j : Nat} (hne : 1 + i ≠ 1 + j)
    (blocks : List Block) (x y t t' u : Bytes) :
    ((((blocks.modify (1 + i) (Block.withBytes x)).modify 0 (Block.withBytes t)).modify (1 + j)
      (Block.withBytes y)).modify 0 (Block.withBytes u))
    = ((((blocks.modify (1 + j) (Block.withBytes y)).modify 0 (Block.withBytes t')).modify (1 + i)
      (Block.withBytes x)).modify 0 (Block.withBytes u)) := by
  apply List.ext_getElem?
  intro n
  simp only [List.getElem?_modify]
  cases blocks[n]? with
  | none => rfl
  | some block =>
      by_cases hn : 0 = n
      · have hi : ¬ 1 + i = n := by omega
        have hj : ¬ 1 + j = n := by omega
        simp only [if_pos hn, if_neg hi, if_neg hj, Option.map_eq_map, Option.map_some,
          Block.withBytes]
      · by_cases hi : 1 + i = n
        · have hj : ¬ 1 + j = n := fun hj => hne (hi.trans hj.symm)
          simp only [if_neg hn, if_pos hi, if_neg hj, Option.map_eq_map, Option.map_some]
        · simp only [if_neg hn, if_neg hi, Option.map_eq_map, Option.map_some]

namespace Edited

/-- The plan of an edit in another data block stays the same. -/
theorem planEdit_other {a b : Archive} {path p : Path} {h k : Header} {old payload x : Bytes}
    {moves : List Move} {block : Block} (he : Edited a path h payload moves block b)
    (hf : a.forest.Fitting) (htarget : a.forest.leaf? path = some (h, old))
    (hp : a.forest.leaf? p = some (k, x)) (hne : k.blockIndex ≠ h.blockIndex) (bytes : Bytes) :
    b.planEdit p bytes = a.planEdit p bytes :=
  planEdit_congr hf (he.fitting hf htarget) hp he.damage (he.block_of_ne (by omega) (by omega))
    (he.agreeOn hf.flags htarget hne) bytes

section Comm

variable {a b b' c c' : Archive} {p q : Path} {h k : Header} {x y bytes bytes' : Bytes}
  {moves moves' : List Move} {block block' : Block}

variable (hf : a.forest.Fitting) (hp : a.forest.leaf? p = some (h, x))
  (hq : a.forest.leaf? q = some (k, y)) (hne : h.blockIndex ≠ k.blockIndex)
  (hpq : Edited a p h bytes moves block b) (hpq' : Edited b q k bytes' moves' block' c)
  (hqp : Edited a q k bytes' moves' block' b') (hqp' : Edited b' p h bytes moves block c')

include hf hp hq hne hpq hpq' hqp hqp'

/-- A leaf that the edit at `q` does not touch is as the edit at `p` leaves it, whether that comes
first or second. -/
theorem leaf?_of_either_order {r : Path} (hr : ¬ (r = q ∨ r ∈ moves'.map Move.path)) :
    c.forest.leaf? r = c'.forest.leaf? r := by
  have hb := hpq.fitting hf hp
  have hb' := hqp.fitting hf hq
  have hq' := hpq.leaf?_of_other_block hf.flags hp hq hne.symm
  have hp' := hqp.leaf?_of_other_block hf.flags hq hp hne
  rw [hpq'.leaf?_of_untouched hb.flags hq' hr, hpq.forest, hqp'.forest]
  refine (Forest.leaf?_edited_congr hpq.plan hqp'.plan hp hp' ?_ ?_ ?_).symm
  · exact hpq.leaf?_of_moved hf.flags
  · exact hqp'.leaf?_of_moved hb'.flags
  · exact hqp.leaf?_of_untouched hf.flags hq hr

/-- No leaf is touched by both edits, so that the forests are the same. -/
theorem forest_of_either_order : c.forest = c'.forest := by
  have hb := hpq.fitting hf hp
  have hb' := hqp.fitting hf hq
  have hq' := hpq.leaf?_of_other_block hf.flags hp hq hne.symm
  have hp' := hqp.leaf?_of_other_block hf.flags hq hp hne
  refine Forest.ext_views (fun r => ?_) fun r => ?_
  · by_cases hr : r = q ∨ r ∈ moves'.map Move.path
    · refine (leaf?_of_either_order hf hq hp hne.symm hqp hqp' hpq hpq' fun hr' => hne ?_).symm
      obtain ⟨l, z, hl, hblock⟩ := hqp.block_of_touched hf.flags hq hr
      obtain ⟨l', z', hl', hblock'⟩ := hpq.block_of_touched hf.flags hp hr'
      rw [hl] at hl'
      cases hl'
      rw [← hblock, hblock']
    · exact leaf?_of_either_order hf hp hq hne hpq hpq' hqp hqp' hr
  · rw [hpq'.branch? hb.flags hq', hpq.branch? hf.flags hp, hqp'.branch? hb'.flags hp',
      hqp.branch? hf.flags hq]

/-- **Edits of different data blocks commute.** -/
theorem comm : c = c' := by
  have hforest := forest_of_either_order hf hp hq hne hpq hpq' hqp hqp'
  have hblocks : c.blocks = c'.blocks := by
    rw [hpq'.blocks, hqp'.blocks, hforest, hpq.blocks, hqp.blocks]
    exact modify_either_order (by omega) _ _ _ _ _ _
  have hframe : c.frame = c'.frame := by
    rw [hpq'.frame, hqp'.frame, hpq.frame, hqp.frame]
  obtain ⟨frame, blocks, forest⟩ := c
  obtain ⟨frame', blocks', forest'⟩ := c'
  rw [Archive.mk.injEq]
  exact ⟨hframe, hblocks, hforest⟩

end Comm

end Edited

/-! ## Calls in either order -/

/-- What a call answers, and the archive that it leaves behind. -/
def call (path : Path) (payload : Bytes) (a : Archive) : Except Stop Unit × Archive :=
  match (setPayloadInPlace path payload).run a with
  | .ok u b => (.ok u, b)
  | .error stop b => (.error stop, b)

/-- A call carries out the plan that there is. -/
theorem call_eq {a : Archive} (hf : a.forest.Fitting) (path : Path) (payload : Bytes) :
    call path payload a = match a.planEdit path payload with
      | .ok e => (.ok (), e.onto a)
      | .error stop => (.error stop, a) := by
  have hrun := run_setPayloadInPlace hf path payload
  rw [call, hrun]
  rcases agree_planEdit hf path payload with ⟨e, hplan, -, hset⟩ | ⟨e, hplan, hset⟩ <;>
    rw [hplan, hset]

section Call

variable {a : Archive} {p q : Path} {h k : Header} {x y : Bytes}

/-- A call for a leaf of one data block leaves flags and sizes that fit, the leaves of the others
and all plans for them. -/
theorem call_leaves (hf : a.forest.Fitting) (hp : a.forest.leaf? p = some (h, x))
    (hq : a.forest.leaf? q = some (k, y)) (hne : k.blockIndex ≠ h.blockIndex)
    (bytes bytes' : Bytes) :
    (call p bytes a).2.forest.Fitting ∧ (call p bytes a).2.forest.leaf? q = some (k, y)
      ∧ (call p bytes a).2.planEdit q bytes' = a.planEdit q bytes' := by
  rw [call_eq hf]
  cases hplan : a.planEdit p bytes with
  | error stop => exact ⟨hf, hq, rfl⟩
  | ok e =>
      obtain ⟨block, he⟩ := edited_of_planEdit hf hp hplan
      exact ⟨he.fitting hf hp, he.leaf?_of_other_block hf.flags hp hq hne,
        he.planEdit_other hf hp hq hne bytes'⟩

/-- Planned edits of different data blocks are carried out in either order. -/
theorem onto_comm {bytes bytes' : Bytes} {e e' : Edit} (hf : a.forest.Fitting)
    (hp : a.forest.leaf? p = some (h, x)) (hq : a.forest.leaf? q = some (k, y))
    (hne : h.blockIndex ≠ k.blockIndex) (hplan : a.planEdit p bytes = .ok e)
    (hplan' : a.planEdit q bytes' = .ok e') : e'.onto (e.onto a) = e.onto (e'.onto a) := by
  obtain ⟨block, hpq⟩ := edited_of_planEdit hf hp hplan
  obtain ⟨block', hqp⟩ := edited_of_planEdit hf hq hplan'
  -- both plans are still there after the other edit
  obtain ⟨second, hpq'⟩ := edited_of_planEdit (hpq.fitting hf hp)
    (hpq.leaf?_of_other_block hf.flags hp hq hne.symm)
    ((hpq.planEdit_other hf hp hq hne.symm bytes').trans hplan')
  obtain ⟨second', hqp'⟩ := edited_of_planEdit (hqp.fitting hf hq)
    (hqp.leaf?_of_other_block hf.flags hq hp hne)
    ((hqp.planEdit_other hf hq hp hne bytes).trans hplan)
  have hsecond := hpq'.found
  rw [hpq.block_of_ne (by omega) (by omega), hqp.found] at hsecond
  have hsecond' := hqp'.found
  rw [hqp.block_of_ne (by omega) (by omega), hpq.found] at hsecond'
  cases hsecond
  cases hsecond'
  exact hpq.comm hf hp hq hne hpq' hqp hqp'

/-- **Calls for leaves of different data blocks commute.** Where flags and sizes fit the bodies,
each of the two calls is answered as it is answered without the other one before it, and the
archive is the same in the end whichever comes first: the dictionary, all blocks with the table
among them, the damage and the forest. -/
theorem call_comm (hf : a.forest.Fitting) (hp : a.forest.get? p = some (.leaf h x))
    (hq : a.forest.get? q = some (.leaf k y)) (hne : h.blockIndex ≠ k.blockIndex)
    (bytes bytes' : Bytes) :
    (call q bytes' (call p bytes a).2).1 = (call q bytes' a).1
      ∧ (call p bytes (call q bytes' a).2).1 = (call p bytes a).1
      ∧ (call q bytes' (call p bytes a).2).2 = (call p bytes (call q bytes' a).2).2 := by
  have hp := Forest.leaf?_eq_some.mpr hp
  have hq := Forest.leaf?_eq_some.mpr hq
  obtain ⟨hfp, hpq, hplanq⟩ := call_leaves hf hp hq hne.symm bytes bytes'
  obtain ⟨hfq, hqp, hplanp⟩ := call_leaves hf hq hp hne bytes' bytes
  rw [call_eq hfp, call_eq hfq, hplanp, hplanq, call_eq hf p, call_eq hf q]
  cases hplan : a.planEdit p bytes with
  | error stop =>
      cases hplan' : a.planEdit q bytes' with
      | error stop' => exact ⟨rfl, rfl, rfl⟩
      | ok e' => exact ⟨rfl, rfl, rfl⟩
  | ok e =>
      cases hplan' : a.planEdit q bytes' with
      | error stop' => exact ⟨rfl, rfl, rfl⟩
      | ok e' =>
          exact ⟨rfl, rfl, onto_comm hf hp hq hne hplan hplan'⟩

end Call

/-- A leaf that grows, so that the one behind it moves, and a leaf of another block. -/
theorem call_comm_moved :
    let a := ofForest ⟨[.ofPayload 1 0 0 [1, 2], .ofPayload 2 0x1000 0 [3],
      .ofPayload 3 0 4 [4]]⟩ false
    let second (a : Archive) := call ⟨1, []⟩ [9, 9] a
    let first (a : Archive) := call ⟨0, []⟩ [7, 7, 7, 7, 7] a
    a.forest.Fitting ∧ a.forest.get? ⟨0, []⟩ = some (.ofPayload 1 0 0 [1, 2])
      ∧ a.forest.get? ⟨1, []⟩ = some (.ofPayload 2 0x1000 0 [3])
      ∧ (second (first a).2).1 = (second a).1 ∧ (first (second a).2).1 = (first a).1
      ∧ (second (first a).2).2 = (first (second a).2).2 := by
  intro a second first
  have hf : a.forest.Fitting := by
    unfold Forest.Fitting
    decide +kernel
  obtain ⟨hsecond, hfirst, hsame⟩ := call_comm (p := ⟨0, []⟩) (q := ⟨1, []⟩) hf rfl rfl (by decide)
    [7, 7, 7, 7, 7] [9, 9]
  exact ⟨hf, rfl, rfl, hsecond, hfirst, hsame⟩

end Archive

end ChunkArchive
