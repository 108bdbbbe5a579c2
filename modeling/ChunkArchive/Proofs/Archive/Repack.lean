import ChunkArchive.Archive.Edit
import ChunkArchive.Proofs.Bytes
import ChunkArchive.Proofs.Chunk.Update
import ChunkArchive.Proofs.Lists
import ChunkArchive.Proofs.Reader

/-!
# Packing a block anew

What one replaced payload does to the leaves of its block. The leaves stored after the target are
placed one after the other behind the new payload (`Forest.Plan`), the forest says so
(`Forest.leaf?_edited_move`), and the block that is built holds every payload at its place
(`slice?_rebuildBlock_target`, `slice?_rebuildBlock_move` and the lemmas for the leaves that
stay).
-/

set_option autoImplicit false

namespace ChunkArchive

/-! ## Placing leaves -/

theorem le_alignUp (value alignment : Nat) : value ≤ alignUp value alignment := by
  unfold alignUp
  have hpos : 0 < max 1 alignment := by omega
  generalize max 1 alignment = m at hpos ⊢
  have hdiv := Nat.div_add_mod (value + (m - 1)) m
  have hmod := Nat.mod_lt (value + (m - 1)) hpos
  rw [Nat.mul_comm] at hdiv
  omega

namespace Forest

/-- Where a leaf goes: to the wanted place or, if that is taken, behind what has been placed. -/
def spot (delta : Int) (placedEnd : Nat) (h : Header) : Nat :=
  let wanted := alignUp (Int.ofNat h.offset.toNat + delta).toNat h.alignment
  if wanted < placedEnd then alignUp placedEnd h.alignment else wanted

theorem le_spot (delta : Int) (placedEnd : Nat) (h : Header) :
    placedEnd ≤ spot delta placedEnd h := by
  unfold spot
  simp only
  split
  · exact le_alignUp _ _
  · omega

/-- No leaf is moved by less than the difference of lengths. -/
theorem offset_le_spot (delta : Int) (placedEnd : Nat) (h : Header) :
    h.offset.toNat + delta ≤ spot delta placedEnd h := by
  have hwanted := le_alignUp (Int.ofNat h.offset.toNat + delta).toNat h.alignment
  have hplaced := le_alignUp placedEnd h.alignment
  simp only [Int.ofNat_eq_natCast] at hwanted
  unfold spot
  simp only [Int.ofNat_eq_natCast]
  split <;> omega

theorem placeFrom_cons (delta : Int) (placedEnd : Nat) (path : Path) (node : Node)
    (leaves : List (Path × Node)) :
    placeFrom delta placedEnd ((path, node) :: leaves) =
      let m : Move := ⟨path, node, spot delta placedEnd node.header⟩
      if m.stop < 0x100000000 then do
        let others ← placeFrom delta (max placedEnd m.stop) leaves
        return m :: others
      else .error (.format (.chunkTooFar path.toText)) := rfl

/-- Leaves are placed in the order given, the first behind `placedEnd` and each behind the one
before. -/
theorem placeFrom_eq_ok {delta : Int} {placedEnd : Nat} {leaves : List (Path × Node)}
    {moves : List Move} (h : placeFrom delta placedEnd leaves = .ok moves) :
    moves.map (fun m => (m.path, m.node)) = leaves
      ∧ (∀ m ∈ moves, placedEnd ≤ m.offset ∧ m.stop < 2 ^ 32)
      ∧ moves.Pairwise fun m n => m.stop ≤ n.offset := by
  induction leaves generalizing placedEnd moves with
  | nil =>
      cases h
      exact ⟨rfl, fun m hm => (List.not_mem_nil hm).elim, List.Pairwise.nil⟩
  | cons leaf leaves ih =>
      obtain ⟨path, node⟩ := leaf
      have hspot := le_spot delta placedEnd node.header
      rw [placeFrom_cons] at h
      generalize spot delta placedEnd node.header = offset at h hspot
      simp only at h
      split at h
      · next hstop =>
          obtain ⟨others, hothers, h⟩ := Outcome.bind_eq_ok.mp h
          obtain rfl := Outcome.pure_eq_ok.mp h
          obtain ⟨hmap, hall, hpair⟩ := ih hothers
          refine ⟨by rw [List.map_cons, hmap], ?_, ?_⟩
          · intro m hm
            rcases List.mem_cons.mp hm with rfl | hm
            · exact ⟨hspot, hstop⟩
            · obtain ⟨hle, hm⟩ := hall m hm
              exact ⟨by omega, hm⟩
          · -- the others are placed behind the end of this one
            refine List.pairwise_cons.mpr ⟨fun m hm => ?_, hpair⟩
            have hle := (hall m hm).1
            omega
      · cases h

theorem offset_le_of_placeFrom {delta : Int} {placedEnd : Nat} {leaves : List (Path × Node)}
    {moves : List Move} (h : placeFrom delta placedEnd leaves = .ok moves) :
    ∀ m ∈ moves, m.node.header.offset.toNat + delta ≤ m.offset := by
  induction leaves generalizing placedEnd moves with
  | nil =>
      cases h
      exact fun m hm => (List.not_mem_nil hm).elim
  | cons leaf leaves ih =>
      obtain ⟨path, node⟩ := leaf
      rw [placeFrom_cons] at h
      simp only at h
      split at h
      · obtain ⟨others, hothers, h⟩ := Outcome.bind_eq_ok.mp h
        obtain rfl := Outcome.pure_eq_ok.mp h
        exact List.forall_mem_cons.mpr ⟨offset_le_spot _ _ _, ih hothers⟩
      · cases h

/-- The moves for a target at `path` with header `target` that gets a payload of length `size`:
leaves stored after it, each moved once, to places behind the payload and one after the other.
Leaves are only left out where the length stays the same. -/
structure Plan (forest : Forest) (path : Path) (target : Header) (size : Nat) (moves : List Move) :
    Prop where
  following : ∀ m ∈ moves,
    forest.get? m.path = some m.node ∧ follows path target m.path m.node = true
  distinct : (moves.map Move.path).Nodup
  behind : ∀ m ∈ moves, target.offset.toNat + size ≤ m.offset ∧ m.stop < 2 ^ 32
  inOrder : moves.Pairwise fun m n => m.stop ≤ n.offset
  complete : (size = target.size.toNat ∧ moves = []) ∨ ∀ q node, forest.get? q = some node →
    follows path target q node = true → q ∈ moves.map Move.path

namespace Plan

variable {forest : Forest} {path : Path} {target : Header} {size : Nat} {moves : List Move}

theorem le_offset (hplan : forest.Plan path target size moves) :
    ∀ m ∈ moves, target.offset.toNat + size ≤ m.offset := by
  intro m hm
  exact (hplan.behind m hm).1

/-- Every place has an offset of 32 bits. -/
theorem toNat_offset (hplan : forest.Plan path target size moves) {m : Move} (hm : m ∈ moves) :
    (UInt32.ofNat m.offset).toNat = m.offset := by
  have hbound := (hplan.behind m hm).2
  rw [Move.stop] at hbound
  rw [UInt32.toNat_ofNat']
  omega

end Plan

/-- A leaf follows the target in its block if it has the greater offset or, where the target is
empty, if it has the same offset and comes later in the walk. -/
theorem follows_leaf {path q : Path} {target k : Header} {x : Bytes} :
    follows path target q (.leaf k x) = true ↔
      (k.hasChildren = false ∧ k.blockIndex = target.blockIndex)
        ∧ (target.offset < k.offset ∨ target.size = 0 ∧ k.offset = target.offset ∧ path < q) := by
  show (!k.hasChildren && k.blockIndex = target.blockIndex
    && (target.offset < k.offset
      || (target.size = 0 && k.offset = target.offset && path < q))) = true ↔ _
  simp only [Bool.and_eq_true, Bool.or_eq_true, Bool.not_eq_true', decide_eq_true_eq, and_assoc]

theorem mem_following {forest : Forest} {path : Path} {target : Header} {e : Path × Node} :
    e ∈ forest.following path target ↔
      forest.get? e.1 = some e.2 ∧ follows path target e.1 e.2 = true := by
  rw [following, List.mem_mergeSort, List.mem_filter, mem_walk]

theorem following_distinct (forest : Forest) (path : Path) (target : Header) :
    ((forest.following path target).map Prod.fst).Nodup := by
  have hperm : (forest.following path target).Perm
      (forest.walk.filter fun e => follows path target e.1 e.2) := List.mergeSort_perm _ _
  have hsublist := (List.filter_sublist (l := forest.walk)
    (p := fun e => follows path target e.1 e.2)).map Prod.fst
  exact (hperm.map Prod.fst).nodup_iff.mpr (forest.walk_distinct.sublist hsublist)

/-- A payload of the old length moves nothing. -/
theorem moves_of_same_length (forest : Forest) (path : Path) (target : Header) :
    forest.moves path target target.size.toNat = .ok [] := by
  simp [Forest.moves]

/-- Moves that are found make up a plan. -/
theorem plan_of_moves {forest : Forest} {path : Path} {target : Header} {size : Nat}
    {moves : List Move} (h : forest.moves path target size = .ok moves) :
    forest.Plan path target size moves := by
  unfold Forest.moves at h
  simp only at h
  split at h
  · next hsame =>
      cases h
      have hsize : size = target.size.toNat := by
        simp only [Int.ofNat_eq_natCast] at hsame
        omega
      exact ⟨fun m hm => (List.not_mem_nil hm).elim, List.nodup_nil,
        fun m hm => (List.not_mem_nil hm).elim, List.Pairwise.nil, Or.inl ⟨hsize, rfl⟩⟩
  · obtain ⟨hmap, hall, hpair⟩ := placeFrom_eq_ok h
    have hpaths : moves.map Move.path = (forest.following path target).map Prod.fst := by
      rw [← hmap, List.map_map]
      rfl
    refine ⟨fun m hm => ?_, ?_, hall, hpair, Or.inr fun q node hq hfollows => ?_⟩
    · have hmem : (m.path, m.node) ∈ forest.following path target := by
        rw [← hmap]
        exact List.mem_map_of_mem hm
      exact mem_following.mp hmem
    · rw [hpaths]
      exact following_distinct forest path target
    · have hmem : (q, node) ∈ forest.following path target := mem_following.mpr ⟨hq, hfollows⟩
      rw [hpaths]
      exact List.mem_map.mpr ⟨(q, node), hmem, rfl⟩

theorem offset_le_of_moves {forest : Forest} {path : Path} {target : Header} {size : Nat}
    {moves : List Move} (h : forest.moves path target size = .ok moves) {m : Move}
    (hm : m ∈ moves) : m.node.header.offset.toNat + size ≤ m.offset + target.size.toNat := by
  unfold Forest.moves at h
  simp only at h
  split at h
  · cases h
    cases hm
  · have hle := offset_le_of_placeFrom h m hm
    simp only [Int.ofNat_eq_natCast] at hle
    omega

/-! ## The forest after an edit -/

/-- The forest after one move. -/
def shift (forest : Forest) (m : Move) : Forest :=
  forest.update m.path fun node =>
    node.withHeader { node.header with offset := UInt32.ofNat m.offset }

theorem leaf?_shift {forest : Forest} {m : Move} {h : Header} {payload : Bytes}
    (hleaf : forest.leaf? m.path = some (h, payload)) (q : Path) :
    (forest.shift m).leaf? q
      = if q = m.path then some ({ h with offset := UInt32.ofNat m.offset }, payload)
        else forest.leaf? q :=
  leaf?_update _ rfl hleaf q

theorem branch?_shift {forest : Forest} {m : Move} {h : Header} {payload : Bytes}
    (hleaf : forest.leaf? m.path = some (h, payload)) (q : Path) :
    (forest.shift m).branch? q = forest.branch? q :=
  branch?_update _ rfl hleaf q

section Shifts

variable {forest : Forest} {moves : List Move}

/-- A move leaves alone the leaves that the other moves are of. -/
theorem leaf?_shift_others {first : Move} (hfirst : ∃ e, forest.leaf? first.path = some e)
    (hdistinct : first.path ∉ moves.map Move.path) :
    ∀ m ∈ moves, (forest.shift first).leaf? m.path = forest.leaf? m.path := by
  intro m hm
  obtain ⟨⟨h, payload⟩, hfirst⟩ := hfirst
  have hne : m.path ≠ first.path := by
    intro heq
    exact hdistinct (heq ▸ List.mem_map_of_mem hm)
  rw [leaf?_shift hfirst, if_neg hne]

/-- Moves of other leaves leave a leaf where it is, and a moved leaf is at the place of its move. -/
theorem leaf?_shifts (hleaf : ∀ m ∈ moves, ∃ e, forest.leaf? m.path = some e)
    (hdistinct : (moves.map Move.path).Nodup) :
    (∀ q, q ∉ moves.map Move.path → (moves.foldl shift forest).leaf? q = forest.leaf? q)
      ∧ ∀ m ∈ moves, ∀ h payload, forest.leaf? m.path = some (h, payload) →
        (moves.foldl shift forest).leaf? m.path
          = some ({ h with offset := UInt32.ofNat m.offset }, payload) := by
  induction moves generalizing forest with
  | nil => exact ⟨fun _ _ => rfl, by simp⟩
  | cons first moves ih =>
      rw [List.map_cons, List.nodup_cons] at hdistinct
      have hothers := leaf?_shift_others (hleaf first (by simp)) hdistinct.1
      obtain ⟨⟨h₀, payload₀⟩, hfirst⟩ := hleaf first (by simp)
      have hshift := leaf?_shift hfirst
      have hleaf' : ∀ m ∈ moves, ∃ e, (forest.shift first).leaf? m.path = some e := by
        intro m hm
        rw [hothers m hm]
        exact hleaf m (by simp [hm])
      obtain ⟨hstay, hmoved⟩ := ih hleaf' hdistinct.2
      refine ⟨fun q hq => ?_, fun m hm h payload hm' => ?_⟩
      · rw [List.map_cons, List.mem_cons, not_or] at hq
        rw [List.foldl_cons, hstay q hq.2, hshift, if_neg hq.1]
      · rw [List.foldl_cons]
        rcases List.mem_cons.mp hm with rfl | hm
        · rw [hstay m.path hdistinct.1, hshift, if_pos rfl]
          rw [hfirst] at hm'
          cases hm'
          rfl
        · exact hmoved m hm h payload (by rw [hothers m hm, hm'])

theorem branch?_shifts (hleaf : ∀ m ∈ moves, ∃ e, forest.leaf? m.path = some e)
    (hdistinct : (moves.map Move.path).Nodup) (q : Path) :
    (moves.foldl shift forest).branch? q = forest.branch? q := by
  induction moves generalizing forest with
  | nil => rfl
  | cons first moves ih =>
      rw [List.map_cons, List.nodup_cons] at hdistinct
      have hothers := leaf?_shift_others (hleaf first (by simp)) hdistinct.1
      obtain ⟨⟨h₀, payload₀⟩, hfirst⟩ := hleaf first (by simp)
      rw [List.foldl_cons, ih ?_ hdistinct.2, branch?_shift hfirst]
      intro m hm
      rw [hothers m hm]
      exact hleaf m (by simp [hm])

end Shifts

section Edited

variable {forest : Forest} {path : Path} {h : Header} {old payload : Bytes} {moves : List Move}

theorem edited_eq (forest : Forest) (path : Path) (payload : Bytes) (moves : List Move) :
    forest.edited path payload moves = (moves.foldl shift forest).update path fun node =>
      .leaf { node.header with size := UInt32.ofNat payload.length } payload := rfl

/-- The target does not follow itself. -/
theorem Plan.target_not_mem {size : Nat} (hplan : forest.Plan path h size moves)
    (htarget : forest.leaf? path = some (h, old)) : path ∉ moves.map Move.path := by
  intro hmem
  obtain ⟨m, hm, rfl⟩ := List.mem_map.mp hmem
  obtain ⟨hget, hfollows⟩ := hplan.following m hm
  rw [leaf?_eq_some.mp htarget] at hget
  rw [← Option.some.inj hget] at hfollows
  simp [follows, Node.header, UInt32.lt_irrefl, Path.lt_irrefl] at hfollows

variable (hplan : forest.Plan path h payload.length moves)
  (htarget : forest.leaf? path = some (h, old))
  (hleaf : ∀ m ∈ moves, ∃ e, forest.leaf? m.path = some e)

include hplan htarget hleaf

theorem leaf?_edited (q : Path) :
    (forest.edited path payload moves).leaf? q
      = if q = path then some ({ h with size := UInt32.ofNat payload.length }, payload)
        else (moves.foldl shift forest).leaf? q := by
  have hstay := (leaf?_shifts hleaf hplan.distinct).1 path (hplan.target_not_mem htarget)
  rw [edited_eq, leaf?_update _ rfl (by rw [hstay, htarget]) q]
  rfl

/-- The target has the new payload. -/
theorem leaf?_edited_target :
    (forest.edited path payload moves).leaf? path
      = some ({ h with size := UInt32.ofNat payload.length }, payload) := by
  rw [leaf?_edited hplan htarget hleaf, if_pos rfl]

/-- A leaf that is moved keeps all but its offset. -/
theorem leaf?_edited_move {m : Move} (hm : m ∈ moves) {k : Header} {x : Bytes}
    (hk : forest.leaf? m.path = some (k, x)) :
    (forest.edited path payload moves).leaf? m.path
      = some ({ k with offset := UInt32.ofNat m.offset }, x) := by
  have hne : m.path ≠ path := by
    intro heq
    exact hplan.target_not_mem htarget (heq ▸ List.mem_map_of_mem hm)
  rw [leaf?_edited hplan htarget hleaf, if_neg hne]
  exact (leaf?_shifts hleaf hplan.distinct).2 m hm k x hk

/-- All other leaves are as they were. -/
theorem leaf?_edited_other {q : Path} (hne : q ≠ path) (hq : q ∉ moves.map Move.path) :
    (forest.edited path payload moves).leaf? q = forest.leaf? q := by
  rw [leaf?_edited hplan htarget hleaf, if_neg hne]
  exact (leaf?_shifts hleaf hplan.distinct).1 q hq

/-- A leaf of the forest after an edit is the target, a moved leaf or one that stays. -/
theorem leaf?_edited_cases {q : Path} {k : Header} {x : Bytes}
    (hq : (forest.edited path payload moves).leaf? q = some (k, x)) :
    (q = path ∧ k = { h with size := UInt32.ofNat payload.length } ∧ x = payload)
      ∨ (∃ m ∈ moves, m.path = q ∧ ∃ k₀, m.node = .leaf k₀ x ∧ forest.leaf? q = some (k₀, x)
          ∧ k = { k₀ with offset := UInt32.ofNat m.offset })
      ∨ (q ≠ path ∧ q ∉ moves.map Move.path ∧ forest.leaf? q = some (k, x)) := by
  by_cases hpath : q = path
  · subst hpath
    rw [leaf?_edited_target hplan htarget hleaf, Option.some.injEq, Prod.mk.injEq] at hq
    exact Or.inl ⟨rfl, hq.1.symm, hq.2.symm⟩
  · by_cases hmem : q ∈ moves.map Move.path
    · obtain ⟨m, hm, rfl⟩ := List.mem_map.mp hmem
      obtain ⟨⟨k₀, x₀⟩, hk₀⟩ := hleaf m hm
      rw [leaf?_edited_move hplan htarget hleaf hm hk₀, Option.some.injEq, Prod.mk.injEq] at hq
      obtain ⟨rfl, rfl⟩ := hq
      refine Or.inr (Or.inl ⟨m, hm, rfl, k₀, ?_, hk₀, rfl⟩)
      have hget := (hplan.following m hm).1
      rw [leaf?_eq_some.mp hk₀] at hget
      exact (Option.some.inj hget).symm
    · rw [leaf?_edited_other hplan htarget hleaf hpath hmem] at hq
      exact Or.inr (Or.inr ⟨hpath, hmem, hq⟩)

theorem branch?_edited (q : Path) :
    (forest.edited path payload moves).branch? q = forest.branch? q := by
  have hstay := (leaf?_shifts hleaf hplan.distinct).1 path (hplan.target_not_mem htarget)
  rw [edited_eq, branch?_update _ rfl (by rw [hstay, htarget]) q,
    branch?_shifts hleaf hplan.distinct]

end Edited

end Forest

/-! ## The block after an edit -/

namespace Move

theorem slice?_write_of_le {m : Move} {block part : Bytes} {start stop : Nat}
    (h : Bytes.slice? block start stop = some part) (hle : stop ≤ m.offset) :
    Bytes.slice? (write block m) start stop = some part := by
  unfold write
  split
  · exact Bytes.slice?_overwrite_of_le _ h hle
  · exact h

/-- A range before all places that are written stays as it is. -/
theorem slice?_writes_of_le {moves : List Move} {block part : Bytes} {start stop : Nat}
    (h : Bytes.slice? block start stop = some part) (hle : ∀ m ∈ moves, stop ≤ m.offset) :
    Bytes.slice? (moves.foldl write block) start stop = some part := by
  induction moves generalizing block with
  | nil => exact h
  | cons first moves ih =>
      rw [List.foldl_cons]
      exact ih (slice?_write_of_le h (hle first (by simp))) fun m hm => hle m (by simp [hm])

theorem length_le_write (block : Bytes) (m : Move) : block.length ≤ (write block m).length := by
  unfold write
  split
  · rw [Bytes.length_overwrite]
    exact Nat.le_max_left _ _
  · exact Nat.le_refl _

/-- Writing never makes a block shorter. -/
theorem length_le_writes (moves : List Move) (block : Bytes) :
    block.length ≤ (moves.foldl write block).length := by
  induction moves generalizing block with
  | nil => exact Nat.le_refl _
  | cons first moves ih =>
      rw [List.foldl_cons]
      exact (length_le_write block first).trans (ih _)

/-- Outside the places that are written every byte stays as it is. -/
theorem getD_writes_of_outside {moves : List Move} {block : Bytes} {i : Nat}
    (houtside : ∀ m ∈ moves, ∀ x, m.node.payload? = some x →
      i < m.offset ∨ m.offset + x.length ≤ i) :
    (moves.foldl write block)[i]?.getD 0 = block[i]?.getD 0 := by
  induction moves generalizing block with
  | nil => rfl
  | cons first moves ih =>
      obtain ⟨hfirst, hothers⟩ := List.forall_mem_cons.mp houtside
      rw [List.foldl_cons, ih hothers, write]
      split
      · next x hx => exact Bytes.getD_overwrite_of_outside (hfirst x hx)
      · rfl

/-- Leaves that end within a block leave its length as it is. -/
theorem length_writes {moves : List Move} {block : Bytes}
    (hstops : ∀ m ∈ moves, ∀ x, m.node.payload? = some x → m.offset + x.length ≤ block.length) :
    (moves.foldl write block).length = block.length := by
  induction moves generalizing block with
  | nil => rfl
  | cons first moves ih =>
      obtain ⟨hfirst, hothers⟩ := List.forall_mem_cons.mp hstops
      have hwrite : (write block first).length = block.length := by
        rw [write]
        split
        · next x hx => rw [Bytes.length_overwrite, Nat.max_eq_left (hfirst x hx)]
        · rfl
      rw [List.foldl_cons, ih (by rwa [hwrite]), hwrite]

/-- Of leaves written one behind the other each is there in the end. -/
theorem slice?_writes {moves : List Move} {block : Bytes}
    (hinOrder : moves.Pairwise fun m n => m.stop ≤ n.offset) {m : Move} (hm : m ∈ moves)
    {h : Header} {payload : Bytes} (hleaf : m.node = .leaf h payload)
    (hsize : h.size.toNat = payload.length) :
    Bytes.slice? (moves.foldl write block) m.offset (m.offset + payload.length) = some payload := by
  induction moves generalizing block with
  | nil => cases hm
  | cons first moves ih =>
      obtain ⟨hfirst, hothers⟩ := List.pairwise_cons.mp hinOrder
      rw [List.foldl_cons]
      rcases List.mem_cons.mp hm with rfl | hm
      · -- what is written later lies behind this leaf
        refine slice?_writes_of_le ?_ fun n hn => ?_
        · rw [write, hleaf]
          exact Bytes.slice?_overwrite _ _ _
        · have hle := hfirst n hn
          rw [stop, hleaf, Node.header, hsize] at hle
          exact hle
      · exact ih hothers hm

end Move

section Rebuild

variable {old payload part : Bytes} {target : Header} {moves : List Move} {start stop : Nat}

/-- The payload is found at the offset of the target. -/
theorem slice?_rebuildBlock_target
    (hbehind : ∀ m ∈ moves, target.offset.toNat + payload.length ≤ m.offset) :
    Bytes.slice? (rebuildBlock old target payload moves) target.offset.toNat
      (target.offset.toNat + payload.length) = some payload := by
  have hbody := Bytes.slice?_middle (Bytes.padTo target.offset.toNat old) payload
    (old.drop target.stop)
  rw [Bytes.padTo_length] at hbody
  exact Move.slice?_writes_of_le (Bytes.slice?_append_left hbody _) hbehind

/-- What lies before the target stays as it is. -/
theorem slice?_rebuildBlock_before
    (hbehind : ∀ m ∈ moves, target.offset.toNat + payload.length ≤ m.offset)
    (hpart : Bytes.slice? old start stop = some part) (hle : stop ≤ target.offset.toNat) :
    Bytes.slice? (rebuildBlock old target payload moves) start stop = some part := by
  have hpad : Bytes.slice? (Bytes.padTo target.offset.toNat old) start stop = some part :=
    Bytes.slice?_append_left (Bytes.slice?_take hpart hle) _
  have hbody := Bytes.slice?_append_left (Bytes.slice?_append_left hpad payload)
    (old.drop target.stop)
  refine Move.slice?_writes_of_le (Bytes.slice?_append_left hbody _) fun m hm => ?_
  have := hbehind m hm
  omega

/-- A block does not end before the payload, and what lay behind the target is still there. -/
theorem le_length_rebuildBlock (old : Bytes) (target : Header) (payload : Bytes)
    (moves : List Move) :
    target.offset.toNat + payload.length + (old.length - target.stop)
      ≤ (rebuildBlock old target payload moves).length := by
  refine Nat.le_trans ?_ (Move.length_le_writes moves _)
  rw [List.length_append, List.length_append, List.length_append, Bytes.padTo_length,
    List.length_drop]
  exact Nat.le_add_right _ _

/-- A block does not get shorter unless the payload does. -/
theorem length_le_rebuildBlock {old : Bytes} {target : Header} {payload : Bytes}
    (moves : List Move) (hle : target.size.toNat ≤ payload.length) :
    old.length ≤ (rebuildBlock old target payload moves).length := by
  have hlength := le_length_rebuildBlock old target payload moves
  rw [Header.stop] at hlength
  omega

/-- Every moved leaf is found at its new place. -/
theorem slice?_rebuildBlock_move (hinOrder : moves.Pairwise fun m n => m.stop ≤ n.offset) {m : Move}
    (hm : m ∈ moves) {h : Header} {x : Bytes} (hleaf : m.node = .leaf h x)
    (hsize : h.size.toNat = x.length) :
    Bytes.slice? (rebuildBlock old target payload moves) m.offset (m.offset + x.length) = some x :=
  Move.slice?_writes hinOrder hm hleaf hsize

/-- A payload of the old length is put in its place without any moves. -/
theorem rebuildBlock_nil (old : Bytes) (target : Header) (payload : Bytes) :
    rebuildBlock old target payload []
      = Bytes.padTo target.offset.toNat old ++ payload ++ old.drop target.stop := by
  simp [rebuildBlock, Bytes.zeros]

theorem slice?_rebuildBlock_behind (hlen : payload.length = target.size.toNat)
    (hpart : Bytes.slice? old start stop = some part) (hle : target.stop ≤ start) :
    Bytes.slice? (rebuildBlock old target payload []) start stop = some part := by
  rw [rebuildBlock_nil]
  refine Bytes.slice?_append_drop hpart hle _ ?_
  rw [List.length_append, Bytes.padTo_length, hlen, Header.stop]

theorem length_rebuildBlock_nil (hlen : payload.length = target.size.toNat)
    (hle : target.stop ≤ old.length) :
    (rebuildBlock old target payload []).length = old.length := by
  rw [rebuildBlock_nil, List.length_append, List.length_append, Bytes.padTo_length, hlen,
    List.length_drop]
  rw [Header.stop] at hle ⊢
  omega

/-! ### The bytes that no leaf is written over -/

/-- Before the target they are those of the old block. -/
theorem getD_rebuildBlock_before {i : Nat}
    (houtside : ∀ m ∈ moves, ∀ x, m.node.payload? = some x → i < m.offset ∨ m.offset + x.length ≤ i)
    (hi : i < target.offset.toNat) :
    (rebuildBlock old target payload moves)[i]?.getD 0 = old[i]?.getD 0 := by
  rw [rebuildBlock, Move.getD_writes_of_outside houtside, Bytes.getD_append_zeros,
    List.append_assoc, List.getElem?_append_left (by rwa [Bytes.padTo_length]), Bytes.getD_padTo hi]

/-- Behind the payload they are what lay behind the target. -/
theorem getD_rebuildBlock_behind {i : Nat}
    (houtside : ∀ m ∈ moves, ∀ x, m.node.payload? = some x →
      target.offset.toNat + payload.length + i < m.offset
        ∨ m.offset + x.length ≤ target.offset.toNat + payload.length + i) :
    (rebuildBlock old target payload moves)[target.offset.toNat + payload.length + i]?.getD 0
      = old[target.stop + i]?.getD 0 := by
  have hfront : (Bytes.padTo target.offset.toNat old ++ payload).length
      = target.offset.toNat + payload.length := by
    rw [List.length_append, Bytes.padTo_length]
  rw [rebuildBlock, Move.getD_writes_of_outside houtside, Bytes.getD_append_zeros,
    List.getElem?_append_right (by rw [hfront]; omega), hfront, Nat.add_sub_cancel_left,
    List.getElem?_drop]

/-- A block ends with what lay behind the target, or with the last of the moved leaves. -/
theorem lt_length_rebuildBlock {n : Nat}
    (hsizes : ∀ m ∈ moves, ∀ x, m.node.payload? = some x → m.node.header.size.toNat = x.length) :
    n < (rebuildBlock old target payload moves).length ↔
      n < target.offset.toNat + payload.length + (old.length - target.stop)
        ∨ ∃ m ∈ moves, n < m.stop := by
  have hbody : (Bytes.padTo target.offset.toNat old ++ payload ++ old.drop target.stop).length
      = target.offset.toNat + payload.length + (old.length - target.stop) := by
    rw [List.length_append, List.length_append, Bytes.padTo_length, List.length_drop]
  have hmax : n < (moves.map Move.stop).foldl max 0 ↔ ∃ m ∈ moves, n < m.stop := by
    rw [lt_foldl_max]
    simp
  rw [rebuildBlock, Move.length_writes, List.length_append, Bytes.zeros_length, hbody, ← hmax]
  · omega
  · -- every leaf ends within the zeros
    intro m hm x hx
    by_contra hlt
    have hmax : m.offset + x.length - 1 < (moves.map Move.stop).foldl max 0 := by
      refine lt_foldl_max.mpr (Or.inr ⟨m.stop, List.mem_map_of_mem hm, ?_⟩)
      rw [Move.stop, hsizes m hm x hx]
      omega
    rw [List.length_append, Bytes.zeros_length] at hlt
    omega

end Rebuild

end ChunkArchive
