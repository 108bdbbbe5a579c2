import ChunkArchive.Proofs.Archive.Gaps
import ChunkArchive.Proofs.Archive.Placement

/-!
# Putting a payload back

Where no leaf of a block is empty, none shares a byte with another one and every leaf behind the
target is aligned before and after, nothing is rounded and nothing is pushed: the leaves behind the
target slide by the difference of lengths (`Header.slid`), and the block is cut open at the target
(`Header.splice`). Such an edit is undone by putting the old payload back
(`Archive.setPayload_undo`), unless a leaf would have to go back to where it ended at 4 GiB or later
(`Archive.setPayload_undo_refused`).
-/

set_option autoImplicit false

namespace ChunkArchive

/-! ## Leaves that are moved by the difference -/

namespace Forest

/-- The leaves can be placed where they are, moved by `delta`: the first behind `placedEnd`, each
behind the one before, and all at multiples of their alignments. -/
structure Spaced (delta : Int) (placedEnd : Nat) (leaves : List (Path × Node)) : Prop where
  behind : ∀ e ∈ leaves, placedEnd ≤ e.2.header.offset.toNat + delta
  aligned : ∀ e ∈ leaves, e.2.header.alignment ∣ e.2.header.offset.toNat
    ∧ (e.2.header.alignment : Int) ∣ delta
  inOrder : leaves.Pairwise fun x y => x.2.header.stop ≤ y.2.header.offset.toNat

theorem Spaced.spot {delta : Int} {placedEnd : Nat} {path : Path} {node : Node}
    {leaves : List (Path × Node)} (hs : Spaced delta placedEnd ((path, node) :: leaves)) :
    (Forest.spot delta placedEnd node.header : Int) = node.header.offset.toNat + delta := by
  have hbehind : (placedEnd : Int) ≤ node.header.offset.toNat + delta :=
    hs.behind _ List.mem_cons_self
  obtain ⟨hdvd, hdelta⟩ := hs.aligned _ List.mem_cons_self
  have hdvd : node.header.alignment ∣ (node.header.offset.toNat + delta).toNat := by
    have hsum := dvd_add (Int.natCast_dvd_natCast.mpr hdvd) hdelta
    rw [← Int.toNat_of_nonneg (by omega : 0 ≤ node.header.offset.toNat + delta)] at hsum
    exact Int.natCast_dvd_natCast.mp hsum
  -- the place asked for is a multiple of the alignment, and free
  have hleast := spot_isLeast delta placedEnd node.header
  have hle : Forest.spot delta placedEnd node.header ≤ (node.header.offset.toNat + delta).toNat :=
    hleast.2 ⟨hdvd, by omega, by omega⟩
  have hge := hleast.1.2.1
  omega

/-- What the first leaf takes leaves room for the others. -/
theorem Spaced.tail {delta : Int} {placedEnd : Nat} {path : Path} {node : Node}
    {leaves : List (Path × Node)} (hs : Spaced delta placedEnd ((path, node) :: leaves)) :
    Spaced delta (max placedEnd (Forest.spot delta placedEnd node.header + node.header.size.toNat))
      leaves := by
  obtain ⟨hfirst, hrest⟩ := List.pairwise_cons.mp hs.inOrder
  refine ⟨fun e he => ?_, fun e he => hs.aligned e (List.mem_cons_of_mem _ he), hrest⟩
  have hbehind := hs.behind e (List.mem_cons_of_mem _ he)
  have hspot := hs.spot
  have hstop := hfirst e he
  simp only [Header.stop] at hstop
  omega

theorem Spaced.offset_of_placeFrom {delta : Int} {placedEnd : Nat} {leaves : List (Path × Node)}
    (hs : Spaced delta placedEnd leaves) {moves : List Move}
    (h : placeFrom delta placedEnd leaves = .ok moves) :
    ∀ m ∈ moves, (m.offset : Int) = m.node.header.offset.toNat + delta := by
  induction leaves generalizing placedEnd moves with
  | nil =>
      cases h
      exact fun m hm => (List.not_mem_nil hm).elim
  | cons leaf leaves ih =>
      obtain ⟨path, node⟩ := leaf
      rw [placeFrom_cons] at h
      simp only at h
      split at h
      · obtain ⟨others, hothers, h⟩ := Outcome.bind_eq_ok.mp h
        obtain rfl := Outcome.pure_eq_ok.mp h
        exact List.forall_mem_cons.mpr ⟨hs.spot, ih hs.tail hothers⟩
      · cases h

theorem Spaced.exists_placeFrom {delta : Int} {placedEnd : Nat} {leaves : List (Path × Node)}
    (hs : Spaced delta placedEnd leaves)
    (hroom : ∀ e ∈ leaves, e.2.header.stop + delta < 0x100000000) :
    ∃ moves, placeFrom delta placedEnd leaves = .ok moves := by
  induction leaves generalizing placedEnd with
  | nil => exact ⟨[], rfl⟩
  | cons leaf leaves ih =>
      obtain ⟨path, node⟩ := leaf
      obtain ⟨others, hothers⟩ := ih hs.tail fun e he => hroom e (List.mem_cons_of_mem _ he)
      have hfirst := hroom _ List.mem_cons_self
      have hspot := hs.spot
      rw [placeFrom_cons]
      simp only
      rw [if_pos (by simp only [Move.stop, Header.stop] at hfirst ⊢; omega)]
      exact ⟨_, Outcome.bind_eq_ok.mpr ⟨others, hothers, rfl⟩⟩

/-- A leaf is its header and its payload. -/
theorem leaf?_eq_map {forest other : Forest} {q : Path} {f : Header → Header}
    (hheader : other.header? q = (forest.header? q).map f)
    (hpayload : (other.leaf? q).map Prod.snd = (forest.leaf? q).map Prod.snd) :
    other.leaf? q = (forest.leaf? q).map fun e => (f e.1, e.2) := by
  cases hleaf : forest.leaf? q with
  | none =>
      rw [hleaf] at hpayload
      exact Option.map_eq_none_iff.mp hpayload
  | some e =>
      obtain ⟨k, x⟩ := e
      rw [hleaf] at hpayload
      obtain ⟨⟨l, y⟩, hother, rfl⟩ := Option.map_eq_some_iff.mp hpayload
      rw [header?_of_leaf hleaf, header?_of_leaf hother] at hheader
      rw [hother, Option.some.inj hheader]
      rfl

end Forest

/-- Leaves that are in their places already can be written once more. -/
theorem Move.writes_of_slices {moves : List Move} {block : Bytes}
    (hplaces : ∀ m ∈ moves, ∀ x, m.node.payload? = some x →
      Bytes.slice? block m.offset (m.offset + x.length) = some x) :
    moves.foldl write block = block := by
  induction moves with
  | nil => rfl
  | cons first moves ih =>
      obtain ⟨hfirst, hothers⟩ := List.forall_mem_cons.mp hplaces
      have hwrite : write block first = block := by
        rw [write]
        split
        · next x hx => exact Bytes.overwrite_of_slice? (hfirst x hx)
        · rfl
      rw [List.foldl_cons, hwrite, ih hothers]

/-! ## What becomes of a header and of a block -/

namespace Header

/-- The header of a leaf when the target gets the length `size` and nothing is rounded: leaves of
its block that are stored after it slide by the difference. -/
def slid (h : Header) (size : Nat) (k : Header) : Header :=
  if k.hasChildren = false ∧ k.blockIndex = h.blockIndex ∧ h.offset < k.offset then
    { k with offset := UInt32.ofNat (k.offset.toNat + size - h.size.toNat) }
  else k

/-- Only the offset is another one. -/
theorem slid_eq (h : Header) (size : Nat) (k : Header) :
    ∃ offset, h.slid size k = { k with offset } := by
  rw [slid]
  split
  · exact ⟨_, rfl⟩
  · exact ⟨k.offset, rfl⟩

/-- The bytes of a block with the payload in the place of the target. -/
def splice (h : Header) (old payload : Bytes) : Bytes :=
  old.take h.offset.toNat ++ payload ++ old.drop h.stop

variable {h k : Header} {size : Nat}

/-- The header that the target has with a payload of length `size`. -/
abbrev resized (h : Header) (size : Nat) : Header := { h with size := UInt32.ofNat size }

/-- Bytes that are put back in their place make up the block as it was. -/
theorem splice_splice {old x payload : Bytes} (hslice : Bytes.slice? old h.offset.toNat h.stop = some x)
    (hshort : payload.length < 2 ^ 32) :
    (h.resized payload.length).splice (h.splice old payload) x = old := by
  obtain ⟨before, behind, rfl, hoffset, hstop⟩ := Bytes.slice?_eq_some_iff.mp hslice
  have hstop' : (h.resized payload.length).stop = (before ++ payload).length := by
    rw [stop, UInt32.toNat_ofNat_of_lt' hshort, List.length_append, hoffset]
  have hfront : (before ++ x).length = h.stop := by
    rw [List.length_append, hoffset, hstop]
  have hsplice : h.splice (before ++ x ++ behind) payload = before ++ payload ++ behind := by
    rw [splice, ← hfront, List.drop_left, ← hoffset, List.append_assoc before x, List.take_left]
  rw [hsplice, splice, hstop', List.drop_left]
  show (before ++ payload ++ behind).take h.offset.toNat ++ x ++ behind = _
  rw [← hoffset, List.append_assoc before payload, List.take_left]

theorem slice?_splice_before {old part payload : Bytes} {start stop : Nat}
    (hpart : Bytes.slice? old start stop = some part) (hle : stop ≤ h.offset.toNat) :
    Bytes.slice? (h.splice old payload) start stop = some part :=
  Bytes.slice?_append_left (Bytes.slice?_append_left (Bytes.slice?_take hpart hle) _) _

theorem slice?_splice_behind {old part payload : Bytes} {start stop : Nat}
    (hold : h.offset.toNat ≤ old.length) (hpart : Bytes.slice? old start stop = some part)
    (hle : h.stop ≤ start) {start' stop' : Nat}
    (hstart : start' + h.size.toNat = start + payload.length)
    (hstop : stop' + h.size.toNat = stop + payload.length) :
    Bytes.slice? (h.splice old payload) start' stop' = some part := by
  have hfront : (old.take h.offset.toNat ++ payload).length = h.offset.toNat + payload.length := by
    rw [List.length_append, List.length_take, Nat.min_eq_left hold]
  have hshifted := Bytes.slice?_append_drop_shifted hpart hle (old.take h.offset.toNat ++ payload)
  have hbounds := (Bytes.slice?_bounds hpart).1
  rw [Header.stop] at hle
  have hs : (old.take h.offset.toNat ++ payload).length + (start - h.stop) = start' := by
    rw [hfront, Header.stop]
    omega
  have he : (old.take h.offset.toNat ++ payload).length + (stop - h.stop) = stop' := by
    rw [hfront, Header.stop]
    omega
  rwa [hs, he] at hshifted

end Header

/-! ## Packed blocks -/

namespace Archive

/-- The chunks of a data block that are leaves by their flag have payloads that are in the block and
not empty, and no two of them have a byte in common. -/
structure Packed (a : Archive) (index : Nat) : Prop where
  leaf : ∀ q k, a.forest.header? q = some k → k.hasChildren = false → k.blockIndex = index →
    ∃ x, a.forest.leaf? q = some (k, x) ∧ x ≠ [] ∧ (Node.leaf k x).Backed a.dataBlocks
  apart : ∀ p q j k, a.forest.header? p = some j → a.forest.header? q = some k → p ≠ q →
    j.hasChildren = false → k.hasChildren = false → j.blockIndex = index → k.blockIndex = index →
      j.Apart k

/-- The block of the target is packed, and the leaves behind the target are aligned, and stay so
when they are moved by the difference to the length `size`. -/
structure Slides (a : Archive) (path : Path) (h : Header) (size : Nat) : Prop where
  packed : a.Packed h.blockIndex
  target : a.forest.header? path = some h
  flag : h.hasChildren = false
  aligned : ∀ q k, a.forest.Behind path h q k →
    k.alignment ∣ k.offset.toNat ∧ (k.alignment : Int) ∣ size - h.size.toNat

/-- Where forest and blocks are in step and no leaf is empty, every block is packed. -/
theorem InStep.packed {a : Archive} (hs : a.InStep)
    (hfilled : ∀ e ∈ a.forest.walk, e.2.payload? ≠ some []) (index : Nat) : a.Packed index := by
  have hleaf : ∀ q k, a.forest.header? q = some k → k.hasChildren = false →
      ∃ x, a.forest.leaf? q = some (k, x) := by
    intro q k hq hflag
    obtain ⟨node, hget, rfl⟩ := Option.map_eq_some_iff.mp hq
    rcases Forest.get?_cases hget with ⟨k, x, rfl, hx⟩ | ⟨k, cs, rfl, -⟩
    · exact ⟨x, hx⟩
    · have hfits : k.hasChildren = true := hs.flags _ (Forest.mem_walk.mpr hget)
      rw [Node.header, hfits] at hflag
      cases hflag
  refine ⟨fun q k hq hflag _ => ?_, fun p q j k hp hq hne hjflag hkflag hj hk => ?_⟩
  · obtain ⟨x, hx⟩ := hleaf q k hq hflag
    have hmem := Forest.mem_walk.mpr (Forest.leaf?_eq_some.mp hx)
    refine ⟨x, hx, ?_, hs.backed hx⟩
    rintro rfl
    exact hfilled _ hmem rfl
  · obtain ⟨x, hx⟩ := hleaf p j hp hjflag
    obtain ⟨y, hy⟩ := hleaf q k hq hkflag
    exact hs.leaves_apart hx hy hne (hj.trans hk.symm)

section Places

variable {a : Archive} {path : Path} {h : Header} {size : Nat}

theorem Packed.size_pos {index : Nat} (hp : a.Packed index) {q : Path} {k : Header}
    (hq : a.forest.header? q = some k) (hflag : k.hasChildren = false)
    (hblock : k.blockIndex = index) : 0 < k.size.toNat := by
  obtain ⟨x, -, hne, hbacked⟩ := hp.leaf q k hq hflag hblock
  rw [hbacked.sizeFits]
  exact List.length_pos_iff.mpr hne

/-- In a packed block the leaves with the larger offset lie behind the target, and all others before
it. -/
theorem Slides.cases (hs : a.Slides path h size) {q : Path} {k : Header}
    (hq : a.forest.header? q = some k) (hne : q ≠ path) (hflag : k.hasChildren = false)
    (hblock : k.blockIndex = h.blockIndex) :
    (h.offset < k.offset ∧ h.stop ≤ k.offset.toNat)
      ∨ (¬ h.offset < k.offset ∧ k.stop ≤ h.offset.toNat) := by
  have hpos := hs.packed.size_pos hs.target hs.flag rfl
  have hpos' := hs.packed.size_pos hq hflag hblock
  have hapart := Header.apart_iff.mp
    (hs.packed.apart q path k h hq hs.target hne hflag hs.flag hblock rfl)
  rw [UInt32.lt_iff_toNat_lt]
  simp only [Header.stop] at hapart ⊢
  omega

theorem Slides.behind_iff (hs : a.Slides path h size) {q : Path} {k : Header} :
    a.forest.Behind path h q k ↔ a.forest.header? q = some k ∧ k.hasChildren = false
      ∧ k.blockIndex = h.blockIndex ∧ h.offset < k.offset := by
  have hpos := hs.packed.size_pos hs.target hs.flag rfl
  have hsize : ¬ h.size = 0 := by
    intro hzero
    rw [hzero] at hpos
    exact Nat.lt_irrefl 0 hpos
  rw [Forest.Behind]
  simp only [hsize, false_and, or_false]

theorem Slides.stop_le (hs : a.Slides path h size) {q : Path} {k : Header}
    (hq : a.forest.Behind path h q k) : h.stop ≤ k.offset.toNat := by
  obtain ⟨hheader, hflag, hblock, hlt⟩ := hs.behind_iff.mp hq
  have hne : q ≠ path := by
    rintro rfl
    rw [hs.target, Option.some.injEq] at hheader
    subst hheader
    exact UInt32.lt_irrefl _ hlt
  rcases hs.cases hheader hne hflag hblock with ⟨-, hle⟩ | ⟨hnot, -⟩
  · exact hle
  · exact absurd hlt hnot

theorem Slides.spaced (hs : a.Slides path h size) :
    Forest.Spaced (size - h.size.toNat) (h.offset.toNat + size)
      (a.forest.following path h) := by
  have hbehind : ∀ e ∈ a.forest.following path h,
      a.forest.Behind path h e.1 e.2.header := fun e he => Forest.behind_iff.mpr ⟨e.2, he, rfl⟩
  refine ⟨fun e he => ?_, fun e he => hs.aligned e.1 _ (hbehind e he), ?_⟩
  · have hle := hs.stop_le (hbehind e he)
    rw [Header.stop] at hle
    omega
  · refine (a.forest.following_sorted path h).imp_of_mem fun {x y} hx hy hlt => ?_
    obtain ⟨hxheader, hxflag, hxblock, -⟩ := hs.behind_iff.mp (hbehind x hx)
    obtain ⟨hyheader, hyflag, hyblock, -⟩ := hs.behind_iff.mp (hbehind y hy)
    have hne : x.1 ≠ y.1 := by
      intro heq
      rw [heq, hyheader, Option.some.injEq] at hxheader
      rw [heq, hxheader] at hlt
      exact hlt.asymm hlt
    have hpos := hs.packed.size_pos hyheader hyflag hyblock
    have hpos' := hs.packed.size_pos hxheader hxflag hxblock
    have hapart := Header.apart_iff.mp
      (hs.packed.apart x.1 y.1 _ _ hxheader hyheader hne hxflag hyflag hxblock hyblock)
    have hle : x.2.header.offset.toNat ≤ y.2.header.offset.toNat := by
      rcases hlt with hlt | ⟨heq, -⟩
      · exact Nat.le_of_lt (UInt32.lt_iff_toNat_lt.mp hlt)
      · rw [heq]
    simp only [Header.stop] at hapart ⊢
    omega

/-- Every moved leaf is moved by the difference. -/
theorem Slides.offset_of_moves (hs : a.Slides path h size) {moves : List Move}
    (hmoves : a.forest.moves path h size = .ok moves) {m : Move} (hm : m ∈ moves) :
    m.offset + h.size.toNat = m.node.header.offset.toNat + size := by
  unfold Forest.moves at hmoves
  simp only at hmoves
  split at hmoves
  · cases hmoves
    cases hm
  · have hoffset := hs.spaced.offset_of_placeFrom hmoves m hm
    omega

/-- All leaves can be moved if they end below 4 GiB then. -/
theorem Slides.exists_moves (hs : a.Slides path h size)
    (hroom : ∀ q k, a.forest.Behind path h q k → k.stop + size < 0x100000000 + h.size.toNat) :
    ∃ moves, a.forest.moves path h size = .ok moves := by
  unfold Forest.moves
  simp only
  split
  · exact ⟨[], rfl⟩
  · refine hs.spaced.exists_placeFrom fun e he => ?_
    have := hroom e.1 e.2.header (Forest.behind_iff.mpr ⟨e.2, he, rfl⟩)
    omega

end Places

/-! ## One edit -/

section Edit

variable {a b : Archive} {path : Path} {h : Header} {old payload : Bytes} {moves : List Move}
  {block : Block} (hs : a.Slides path h payload.length)
  (htarget : a.forest.leaf? path = some (h, old))
  (hmoves : a.forest.moves path h payload.length = .ok moves)
  (he : Edited a path h payload moves block b)

include he in
/-- Leaves behind the target are moved, unless the length stays the same. -/
theorem Edited.moved_of_behind {q : Path} {k : Header} (hq : a.forest.Behind path h q k) :
    payload.length = h.size.toNat ∨ ∃ m ∈ moves, m.path = q ∧ m.node.header = k := by
  rcases he.plan.complete with ⟨hlen, -⟩ | hall
  · exact Or.inl hlen
  · obtain ⟨node, hnode, rfl⟩ := Forest.behind_iff.mp hq
    obtain ⟨hget, hfollows⟩ := Forest.mem_following.mp hnode
    obtain ⟨m, hm, rfl⟩ := List.mem_map.mp (hall q node hget hfollows)
    rw [(he.plan.following m hm).1, Option.some.injEq] at hget
    exact Or.inr ⟨m, hm, rfl, congrArg Node.header hget⟩

namespace Slides

include hs he

/-- It is leaves that are moved. -/
theorem leaf_of_move {m : Move} (hm : m ∈ moves) :
    ∃ x, a.forest.leaf? m.path = some (m.node.header, x) ∧ m.node = .leaf m.node.header x
      ∧ a.forest.Behind path h m.path m.node.header := by
  obtain ⟨hget, hfollows⟩ := he.plan.following m hm
  have hbehind : a.forest.Behind path h m.path m.node.header :=
    Forest.behind_iff.mpr ⟨m.node, Forest.mem_following.mpr ⟨hget, hfollows⟩, rfl⟩
  obtain ⟨hheader, hflag, hblock, -⟩ := hs.behind_iff.mp hbehind
  obtain ⟨x, hleaf, -⟩ := hs.packed.leaf m.path m.node.header hheader hflag hblock
  refine ⟨x, hleaf, ?_, hbehind⟩
  rw [Forest.leaf?_eq_some.mp hleaf] at hget
  exact (Option.some.inj hget).symm

theorem leaf?_of_moves : ∀ m ∈ moves, ∃ e, a.forest.leaf? m.path = some e := by
  intro m hm
  obtain ⟨x, hleaf, -⟩ := hs.leaf_of_move he hm
  exact ⟨_, hleaf⟩

include hmoves

/-- The offsets behind the target stay below 4 GiB. -/
theorem toNat_slid {q : Path} {k : Header} (hq : a.forest.Behind path h q k) :
    (h.slid payload.length k).offset.toNat + h.size.toNat = k.offset.toNat + payload.length
      ∧ (h.slid payload.length k).stop + h.size.toNat = k.stop + payload.length := by
  have hle := hs.stop_le hq
  have hsize : (h.slid payload.length k).size = k.size := by
    obtain ⟨offset, hoffset⟩ := h.slid_eq payload.length k
    rw [hoffset]
  have hlt : k.offset.toNat + payload.length - h.size.toNat < 2 ^ 32 := by
    rcases he.moved_of_behind hq with hlen | ⟨m, hm, -, rfl⟩
    · have := k.offset.toNat_lt
      omega
    · have hoffset := hs.offset_of_moves hmoves hm
      have hstop := (he.plan.behind m hm).2
      rw [Move.stop] at hstop
      omega
  have hoffset : (h.slid payload.length k).offset.toNat
      = k.offset.toNat + payload.length - h.size.toNat := by
    rw [Header.slid, if_pos (hs.behind_iff.mp hq).2]
    exact UInt32.toNat_ofNat_of_lt' hlt
  rw [Header.stop] at hle
  simp only [Header.stop, hsize, hoffset]
  omega

theorem stop_slid_lt (hlen : payload.length ≠ h.size.toNat) {q : Path} {k : Header}
    (hq : a.forest.Behind path h q k) : (h.slid payload.length k).stop < 2 ^ 32 := by
  have hstop := (hs.toNat_slid hmoves he hq).2
  obtain ⟨m, hm, -, rfl⟩ := (he.moved_of_behind hq).resolve_left hlen
  have hoffset := hs.offset_of_moves hmoves hm
  have hend := (he.plan.behind m hm).2
  rw [Move.stop] at hend
  simp only [Header.stop] at hstop ⊢
  omega

include htarget

theorem header?_after (q : Path) :
    b.forest.header? q = if q = path then some (h.resized payload.length)
      else (a.forest.header? q).map (h.slid payload.length) := by
  rw [he.forest, Forest.header?_edited he.plan htarget]
  by_cases hpath : q = path
  · rw [if_pos hpath, if_pos hpath]
  · rw [if_neg hpath, if_neg hpath]
    by_cases hmem : q ∈ moves.map Move.path
    · obtain ⟨m, hm, rfl⟩ := List.mem_map.mp hmem
      obtain ⟨x, hleaf, -, hbehind⟩ := hs.leaf_of_move he hm
      have hoffset : m.node.header.offset.toNat + payload.length - h.size.toNat = m.offset := by
        have := hs.offset_of_moves hmoves hm
        omega
      rw [(Forest.header?_shifts he.plan.distinct).2 m hm, Forest.header?_of_leaf hleaf, Option.map_some, Option.map_some,
        Header.slid, if_pos (hs.behind_iff.mp hbehind).2, hoffset]
    · rw [(Forest.header?_shifts he.plan.distinct).1 q hmem]
      cases hq : a.forest.header? q with
      | none => rfl
      | some k =>
          rw [Option.map_some, Header.slid]
          split
          · next hbehind =>
              -- it would have been moved
              rcases he.moved_of_behind (hs.behind_iff.mpr ⟨hq, hbehind⟩) with
                hlen | ⟨m, hm, rfl, -⟩
              · rw [hlen, Nat.add_sub_cancel, UInt32.ofNat_toNat]
              · exact absurd (List.mem_map_of_mem hm) hmem
          · rfl

theorem leaf?_after (q : Path) :
    b.forest.leaf? q = if q = path then some (h.resized payload.length, payload)
      else (a.forest.leaf? q).map fun e => (h.slid payload.length e.1, e.2) := by
  have hleaves := hs.leaf?_of_moves he
  by_cases hpath : q = path
  · rw [if_pos hpath, hpath, he.forest]
    exact Forest.leaf?_edited_target he.plan htarget hleaves
  · have hheader := hs.header?_after htarget hmoves he q
    have hpayload := he.payload?_edited htarget hleaves q
    rw [if_neg hpath] at hheader hpayload ⊢
    exact Forest.leaf?_eq_map hheader hpayload

theorem target_after : b.forest.leaf? path = some (h.resized payload.length, payload) := by
  rw [hs.leaf?_after htarget hmoves he, if_pos rfl]

omit hmoves

/-- The payload of the target is in its block. -/
theorem slice?_target : Bytes.slice? block.bytes h.offset.toNat h.stop = some old := by
  obtain ⟨x, hleaf, -, hbacked⟩ := hs.packed.leaf path h hs.target hs.flag rfl
  rw [htarget, Option.some.injEq, Prod.mk.injEq] at hleaf
  rw [← hleaf.2] at hbacked
  exact (he.backed_before_iff rfl).mp hbacked

include hmoves

/-- The bytes behind the target are moved as a whole, so that every leaf is in its place already. -/
theorem rebuilt : rebuildBlock block.bytes h payload moves = h.splice block.bytes payload := by
  have hslice := hs.slice?_target htarget he
  have hle := (Bytes.slice?_bounds hslice).2
  have hoffset : h.offset.toNat ≤ block.bytes.length := by
    rw [Header.stop] at hle
    omega
  have hbody : Bytes.padTo h.offset.toNat block.bytes ++ payload ++ block.bytes.drop h.stop
      = h.splice block.bytes payload := by
    rw [Bytes.padTo, Nat.sub_eq_zero_of_le hoffset, Bytes.zeros, List.replicate_zero,
      List.append_nil, Header.splice]
  have hplaces : ∀ m ∈ moves, ∃ x, m.node.payload? = some x ∧ m.stop = m.offset + x.length
      ∧ Bytes.slice? (h.splice block.bytes payload) m.offset (m.offset + x.length) = some x := by
    intro m hm
    obtain ⟨x, hleaf, hnode, hbehind⟩ := hs.leaf_of_move he hm
    obtain ⟨hheader, hflag, hblock, -⟩ := hs.behind_iff.mp hbehind
    obtain ⟨x', hleaf', -, hbacked⟩ := hs.packed.leaf m.path _ hheader hflag hblock
    rw [hleaf, Option.some.injEq, Prod.mk.injEq] at hleaf'
    rw [← hleaf'.2] at hbacked
    have hsize : m.node.header.size.toNat = x.length := hbacked.sizeFits
    have hmoved := hs.offset_of_moves hmoves hm
    refine ⟨x, by rw [hnode]; rfl, by rw [Move.stop, hsize], ?_⟩
    refine Header.slice?_splice_behind hoffset ((he.backed_before_iff hblock).mp hbacked)
      (hs.stop_le hbehind) hmoved ?_
    rw [Header.stop]
    omega
  have hstops : (moves.map Move.stop).foldl max 0 ≤ (h.splice block.bytes payload).length := by
    by_contra hlt
    rcases lt_foldl_max.mp (Nat.lt_of_not_le hlt) with hnil | ⟨n, hn, hlt⟩
    · exact Nat.not_lt_zero _ hnil
    · obtain ⟨m, hm, rfl⟩ := List.mem_map.mp hn
      obtain ⟨x, -, hstop, hplace⟩ := hplaces m hm
      have := (Bytes.slice?_bounds hplace).2
      omega
  rw [rebuildBlock]
  simp only [hbody]
  rw [Nat.sub_eq_zero_of_le hstops, Bytes.zeros, List.replicate_zero, List.append_nil]
  refine Move.writes_of_slices fun m hm x hx => ?_
  obtain ⟨x', hx', -, hplace⟩ := hplaces m hm
  obtain rfl : x' = x := Option.some.inj (hx'.symm.trans hx)
  exact hplace

/-- What another leaf of the block of the target has been before the edit, and where it lies now:
where it was before the target, or moved by the difference behind it. -/
theorem before_edit {q : Path} {l : Header} (hq : b.forest.header? q = some l) (hne : q ≠ path)
    (hflag : l.hasChildren = false) (hblock : l.blockIndex = h.blockIndex) :
    ∃ k, a.forest.header? q = some k ∧ k.hasChildren = false ∧ k.blockIndex = h.blockIndex
      ∧ l = h.slid payload.length k ∧ l.size = k.size ∧ l.alignment = k.alignment
      ∧ ((k.stop ≤ h.offset.toNat ∧ l = k) ∨ (a.forest.Behind path h q k ∧ h.stop ≤ k.offset.toNat
        ∧ l.offset.toNat + h.size.toNat = k.offset.toNat + payload.length
        ∧ l.stop + h.size.toNat = k.stop + payload.length)) := by
  rw [hs.header?_after htarget hmoves he, if_neg hne] at hq
  obtain ⟨k, hk, rfl⟩ := Option.map_eq_some_iff.mp hq
  obtain ⟨offset, hoffset⟩ := h.slid_eq payload.length k
  have hkflag : k.hasChildren = false := by
    rw [hoffset] at hflag
    exact hflag
  have hkblock : k.blockIndex = h.blockIndex := by
    rw [hoffset] at hblock
    exact hblock
  refine ⟨k, hk, hkflag, hkblock, rfl, by rw [hoffset], by rw [hoffset]; rfl, ?_⟩
  rcases hs.cases hk hne hkflag hkblock with ⟨hlt, hle⟩ | ⟨hnot, hle⟩
  · have hbehind := hs.behind_iff.mpr ⟨hk, hkflag, hkblock, hlt⟩
    exact Or.inr ⟨hbehind, hle, hs.toNat_slid hmoves he hbehind⟩
  · refine Or.inl ⟨hle, ?_⟩
    rw [Header.slid, if_neg fun hcond => hnot hcond.2.2]

theorem packed_after (hne : payload ≠ []) : b.Packed h.blockIndex := by
  have hheader : b.forest.header? path = some (h.resized payload.length) := by
    rw [hs.header?_after htarget hmoves he, if_pos rfl]
  have hlen : (h.resized payload.length).stop = h.offset.toNat + payload.length := by
    rw [Header.stop, UInt32.toNat_ofNat_of_lt' he.short]
  refine ⟨fun q l hq hflag hblock => ?_, ?_⟩
  · by_cases hpath : q = path
    · subst hpath
      rw [hheader, Option.some.injEq] at hq
      subst hq
      refine ⟨payload, ?_, hne, he.backed_target⟩
      rw [hs.leaf?_after htarget hmoves he, if_pos rfl]
    · obtain ⟨k, hk, hkflag, hkblock, hl, -, -, hplace⟩ :=
        hs.before_edit htarget hmoves he hq hpath hflag hblock
      obtain ⟨x, hleaf, hx, hbacked⟩ := hs.packed.leaf q k hk hkflag hkblock
      have hslice := (he.backed_before_iff hkblock).mp hbacked
      refine ⟨x, ?_, hx, (he.backed_iff hblock).mpr ?_⟩
      · rw [hs.leaf?_after htarget hmoves he, if_neg hpath, hleaf, Option.map_some, ← hl]
      · rw [hs.rebuilt htarget hmoves he]
        rcases hplace with ⟨hle, rfl⟩ | ⟨-, hle, hoffset, hstop⟩
        · exact Header.slice?_splice_before hslice hle
        · have hold := (Bytes.slice?_bounds (hs.slice?_target htarget he)).2
          rw [Header.stop] at hold
          exact Header.slice?_splice_behind (by omega) hslice hle hoffset hstop
  · have htarget_apart : ∀ q l, b.forest.header? q = some l → q ≠ path → l.hasChildren = false →
        l.blockIndex = h.blockIndex → (h.resized payload.length).Apart l := by
      intro q l hq hpath hflag hblock
      obtain ⟨k, -, -, -, -, -, -, ⟨hle, rfl⟩ | ⟨-, hle, hoffset, -⟩⟩ :=
        hs.before_edit htarget hmoves he hq hpath hflag hblock
      · have hle : l.stop ≤ (h.resized payload.length).offset.toNat := hle
        exact (Header.apart_of_le hle).symm
      · refine Header.apart_of_le ?_
        rw [Header.stop] at hle
        omega
    intro p q j l hp hq hpq hjflag hlflag hjblock hlblock
    by_cases hppath : p = path
    · subst hppath
      rw [hheader, Option.some.injEq] at hp
      subst hp
      exact htarget_apart q l hq (Ne.symm hpq) hlflag hlblock
    by_cases hqpath : q = path
    · subst hqpath
      rw [hheader, Option.some.injEq] at hq
      subst hq
      exact (htarget_apart p j hp hpq hjflag hjblock).symm
    -- on either side of the target leaves are as far apart as before
    obtain ⟨j₀, hj₀, hjflag₀, hjblock₀, -, hjsize, -, hjplace⟩ :=
      hs.before_edit htarget hmoves he hp hppath hjflag hjblock
    obtain ⟨l₀, hl₀, hlflag₀, hlblock₀, -, hlsize, -, hlplace⟩ :=
      hs.before_edit htarget hmoves he hq hqpath hlflag hlblock
    have hapart := Header.apart_iff.mp
      (hs.packed.apart p q j₀ l₀ hj₀ hl₀ hpq hjflag₀ hlflag₀ hjblock₀ hlblock₀)
    rw [Header.apart_iff, hjsize, hlsize]
    simp only [Header.stop] at hapart hjplace hlplace ⊢
    rcases hjplace with ⟨hj, rfl⟩ | ⟨-, hj, hj', hj''⟩ <;>
      rcases hlplace with ⟨hl, rfl⟩ | ⟨-, hl, hl', hl''⟩ <;> omega

/-- What is stored behind the target after the edit was so before. -/
theorem behind_after (hne : payload ≠ []) {q : Path} {l : Header}
    (hq : b.forest.Behind path (h.resized payload.length) q l) :
    ∃ k, a.forest.Behind path h q k ∧ l.alignment = k.alignment
      ∧ l.offset.toNat + h.size.toNat = k.offset.toNat + payload.length
      ∧ l.stop + h.size.toNat = k.stop + payload.length := by
  obtain ⟨hl, hflag, hblock, hcases⟩ := hq
  have hlt : h.offset < l.offset := by
    rcases hcases with hlt | ⟨hzero, -⟩
    · exact hlt
    · have hsize := UInt32.toNat_ofNat_of_lt' he.short
      have hzero : UInt32.ofNat payload.length = 0 := hzero
      rw [hzero] at hsize
      exact absurd (List.length_eq_zero_iff.mp hsize.symm) hne
  have hpath : q ≠ path := by
    rintro rfl
    rw [hs.header?_after htarget hmoves he, if_pos rfl, Option.some.injEq] at hl
    subst hl
    exact UInt32.lt_irrefl _ hlt
  obtain ⟨k, -, -, -, -, -, halignment, ⟨hle, rfl⟩ | ⟨hbehind, -, hoffset, hstop⟩⟩ :=
    hs.before_edit htarget hmoves he hl hpath hflag hblock
  · rw [UInt32.lt_iff_toNat_lt] at hlt
    rw [Header.stop] at hle
    omega
  · exact ⟨k, hbehind, halignment, hoffset, hstop⟩

/-- What was stored behind the target is so after the edit. -/
theorem behind_before (hne : payload ≠ []) {q : Path} {k : Header}
    (hq : a.forest.Behind path h q k) :
    b.forest.Behind path (h.resized payload.length) q (h.slid payload.length k) := by
  have hle := hs.stop_le hq
  have hslid := (hs.toNat_slid hmoves he hq).1
  have hpos := List.length_pos_iff.mpr hne
  obtain ⟨hheader, hflag, hblock, hlt⟩ := hs.behind_iff.mp hq
  obtain ⟨offset, hoffset⟩ := h.slid_eq payload.length k
  have hpath : q ≠ path := by
    rintro rfl
    rw [hs.target, Option.some.injEq] at hheader
    subst hheader
    exact UInt32.lt_irrefl _ hlt
  refine ⟨?_, ?_, ?_, Or.inl ?_⟩
  · rw [hs.header?_after htarget hmoves he, if_neg hpath, hheader, Option.map_some]
  · rw [hoffset]
    exact hflag
  · rw [hoffset]
    exact hblock
  · rw [UInt32.lt_iff_toNat_lt]
    show h.offset.toNat < _
    rw [Header.stop] at hle
    omega

/-- The edit that puts the old payload back is one of the same kind. -/
theorem back (hne : payload ≠ []) : b.Slides path (h.resized payload.length) h.size.toNat := by
  have hheader : b.forest.header? path = some (h.resized payload.length) := by
    rw [hs.header?_after htarget hmoves he, if_pos rfl]
  refine ⟨hs.packed_after htarget hmoves he hne, hheader, hs.flag, fun q l hq => ?_⟩
  obtain ⟨k, hbehind, halignment, hoffset, -⟩ := hs.behind_after htarget hmoves he hne hq
  obtain ⟨hdvd, hdelta⟩ := hs.aligned q k hbehind
  rw [halignment, UInt32.toNat_ofNat_of_lt' he.short]
  refine ⟨Int.natCast_dvd_natCast.mp ?_, ?_⟩
  · have hsum := dvd_add (Int.natCast_dvd_natCast.mpr hdvd) hdelta
    have heq : (k.offset.toNat : Int) + (payload.length - h.size.toNat) = l.offset.toNat := by
      omega
    rwa [heq] at hsum
  · rw [← Int.neg_sub]
    exact hdelta.neg_right

/-! ### The way back -/

omit htarget in
theorem slid_back (hne : payload ≠ []) {q : Path} {k : Header}
    (hq : a.forest.header? q = some k) :
    (h.resized payload.length).slid h.size.toNat (h.slid payload.length k) = k := by
  by_cases hcond : k.hasChildren = false ∧ k.blockIndex = h.blockIndex ∧ h.offset < k.offset
  · have hbehind := hs.behind_iff.mpr ⟨hq, hcond⟩
    have hle := hs.stop_le hbehind
    have hpos := List.length_pos_iff.mpr hne
    have hslid := (hs.toNat_slid hmoves he hbehind).1
    obtain ⟨offset, hoffset⟩ := h.slid_eq payload.length k
    rw [hoffset] at hslid ⊢
    have hslid : offset.toNat + h.size.toNat = k.offset.toNat + payload.length := hslid
    have hlt : h.offset < offset := by
      rw [UInt32.lt_iff_toNat_lt]
      rw [Header.stop] at hle
      omega
    have hold : offset.toNat + h.size.toNat - (h.resized payload.length).size.toNat
        = k.offset.toNat := by
      rw [UInt32.toNat_ofNat_of_lt' he.short]
      omega
    rw [Header.slid, if_pos ⟨hcond.1, hcond.2.1, hlt⟩, hold, UInt32.ofNat_toNat]
  · have hstays : h.slid payload.length k = k := by rw [Header.slid, if_neg hcond]
    rw [hstays, Header.slid]
    exact if_neg hcond

omit hmoves in
theorem length_old : old.length = h.size.toNat := by
  obtain ⟨hstop, -⟩ := Bytes.slice?_bounds (hs.slice?_target htarget he)
  rw [Header.stop] at hstop
  omega

/-- Putting the old payload back brings back the forest and the blocks. -/
theorem restored (hne : payload ≠ []) {c : Archive} (hset : b.setPayload path old = .ok c) :
    c.forest = a.forest ∧ c.dataBlocks = a.dataBlocks := by
  have hsize := hs.length_old htarget he
  have htarget' := hs.target_after htarget hmoves he
  obtain ⟨moves', block', hmoves', he'⟩ := edited_by_moves htarget' hset
  have hback := hs.back htarget hmoves he hne
  rw [← hsize] at hback
  constructor
  · apply Forest.ext_views
    · intro q
      rw [hback.leaf?_after htarget' hmoves' he', hs.leaf?_after htarget hmoves he]
      by_cases hpath : q = path
      · rw [if_pos hpath, hpath, htarget]
        show some (({ h with size := UInt32.ofNat old.length } : Header), old) = some (h, old)
        rw [hsize, UInt32.ofNat_toNat]
      · rw [if_neg hpath, if_neg hpath, Option.map_map, hsize]
        cases hleaf : a.forest.leaf? q with
        | none => rfl
        | some e =>
            have hk := hs.slid_back hmoves he hne (Forest.header?_of_leaf hleaf)
            rw [Option.map_some, Function.comp_apply, hk]
    · intro q
      rw [he'.forest, Forest.branch?_edited he'.plan htarget' (hback.leaf?_of_moves he'), he.forest,
        Forest.branch?_edited he.plan htarget (hs.leaf?_of_moves he)]
  · apply List.ext_getElem?
    intro i
    rw [he'.dataBlocks]
    have hblock : (h.resized payload.length).blockIndex = h.blockIndex := rfl
    rw [hblock]
    by_cases hi : i = h.blockIndex
    · have hbytes : block'.bytes = h.splice block.bytes payload := by
        have hfound := he'.dataBlock
        rw [hblock, he.dataBlocks, if_pos rfl, hs.rebuilt htarget hmoves he] at hfound
        exact (Option.some.inj hfound).symm
      rw [if_pos hi, hi, he.dataBlock, hback.rebuilt htarget' hmoves' he', hbytes,
        Header.splice_splice (hs.slice?_target htarget he) he.short]
    · rw [if_neg hi, he.dataBlocks, if_neg hi]

/-- The old payload can be put back if every leaf finds the place that it had below 4 GiB. -/
theorem exists_undo (hne : payload ≠ []) (hdamage : block.damage = none)
    (hroom : h.size.toNat ≤ payload.length
      ∨ ∀ q k, a.forest.Behind path h q k → k.stop < 2 ^ 32) :
    ∃ c, b.setPayload path old = .ok c := by
  have hsize := hs.length_old htarget he
  have hsize' : (h.resized payload.length).size.toNat = payload.length :=
    UInt32.toNat_ofNat_of_lt' he.short
  obtain ⟨moves', hmoves'⟩ : ∃ moves',
      b.forest.moves path (h.resized payload.length) old.length = .ok moves' := by
    by_cases hlen : payload.length = h.size.toNat
    · have hsame : old.length = (h.resized payload.length).size.toNat := by
        rw [hsize', hlen, hsize]
      rw [hsame]
      exact ⟨[], Forest.moves_of_same_length _ _ _⟩
    · rw [hsize]
      refine (hs.back htarget hmoves he hne).exists_moves fun q l hq => ?_
      obtain ⟨k, hbehind, -, -, hstop⟩ := hs.behind_after htarget hmoves he hne hq
      rw [hsize']
      rcases hroom with hgrows | hfits
      · -- the leaf ends no later than it does behind the longer payload
        have hend := hs.stop_slid_lt hmoves he hlen hbehind
        have hslid := (hs.toNat_slid hmoves he hbehind).2
        omega
      · have hend := hfits q k hbehind
        omega
  have htarget' := hs.target_after htarget hmoves he
  have hlt := h.size.toNat_lt
  exact ⟨_, setPayload_of_moves (Forest.leaf?_eq_some.mp htarget') hs.flag he.block_of_target
    hdamage (by omega) hmoves'⟩

/-- Leaves that are moved back to where they ended behind 4 GiB are refused. -/
theorem stop_lt_of_undo (hne : payload ≠ []) (hlen : payload.length ≠ h.size.toNat) {c : Archive}
    (hset : b.setPayload path old = .ok c) {q : Path} {k : Header}
    (hq : a.forest.Behind path h q k) : k.stop < 2 ^ 32 := by
  have hsize := hs.length_old htarget he
  have htarget' := hs.target_after htarget hmoves he
  obtain ⟨moves', block', hmoves', he'⟩ := edited_by_moves htarget' hset
  have hback := hs.back htarget hmoves he hne
  rw [← hsize] at hback
  have hlen' : old.length ≠ (h.resized payload.length).size.toNat := by
    rw [hsize, show (h.resized payload.length).size.toNat = _ from UInt32.toNat_ofNat_of_lt' he.short]
    exact Ne.symm hlen
  have hend := hback.stop_slid_lt hmoves' he' hlen' (hs.behind_before htarget hmoves he hne hq)
  rwa [hsize, hs.slid_back hmoves he hne (hs.behind_iff.mp hq).1] at hend

end Slides

end Edit

theorem checks_of_setPayload {a b : Archive} {path : Path} {h : Header} {old payload : Bytes}
    {block : Block} (htarget : a.forest.leaf? path = some (h, old))
    (hset : a.setPayload path payload = .ok b) (hfound : a.blocks[1 + h.blockIndex]? = some block) :
    h.hasChildren = false ∧ block.damage = none := by
  obtain ⟨target, hresolve, hrest⟩ := Outcome.bind_eq_ok.mp hset
  obtain ⟨hkind, hrest⟩ := Outcome.unless_eq_ok.mp hrest
  have hget := Forest.get?_of_resolve hresolve
  rw [Forest.leaf?_eq_some.mp htarget, Option.some.injEq] at hget
  subst hget
  have hfound : a.blocks[1 + (Node.leaf h old).header.blockIndex]? = some block := hfound
  simp only [hfound] at hrest
  obtain ⟨hdamage, -⟩ := Outcome.unless_eq_ok.mp hrest
  exact ⟨by simpa [Node.header, Node.payload?] using hkind, by simpa using hdamage⟩

/-- **An edit of a packed block that keeps all alignments moves the leaves behind the target by the
difference of lengths and no others, and putting the old payload back undoes it.** The old payload
can be put back always if it is no longer than the other one, and otherwise exactly if the leaves
behind it ended below 4 GiB, as they do in every block whose length its descriptor can hold. -/
theorem setPayload_undo {a b : Archive} {path : Path} {h : Header} {old payload : Bytes}
    (hpacked : a.Packed h.blockIndex) (htarget : a.forest.leaf? path = some (h, old))
    (hne : payload ≠ [])
    (haligned : ∀ q k, a.forest.Behind path h q k →
      k.alignment ∣ k.offset.toNat ∧ (k.alignment : Int) ∣ payload.length - h.size.toNat)
    (hset : a.setPayload path payload = .ok b) :
    (∀ q k x, a.forest.leaf? q = some (k, x) → q ≠ path →
        ∃ offset, b.forest.leaf? q = some ({ k with offset }, x)
          ∧ (a.forest.Behind path h q k →
            offset.toNat + h.size.toNat = k.offset.toNat + payload.length)
          ∧ (¬ a.forest.Behind path h q k → offset = k.offset))
      ∧ (∀ c, b.setPayload path old = .ok c → c.forest = a.forest ∧ c.dataBlocks = a.dataBlocks)
      ∧ ((∃ c, b.setPayload path old = .ok c) ↔ h.size.toNat ≤ payload.length
          ∨ ∀ q k, a.forest.Behind path h q k → k.stop < 2 ^ 32) := by
  obtain ⟨moves, block, hmoves, he⟩ := edited_by_moves htarget hset
  obtain ⟨hflag, hdamage⟩ := checks_of_setPayload htarget hset he.found
  have hs : a.Slides path h payload.length :=
    ⟨hpacked, Forest.header?_of_leaf htarget, hflag, haligned⟩
  refine ⟨fun q k x hq hpath => ?_, fun c => hs.restored htarget hmoves he hne, ?_,
    hs.exists_undo htarget hmoves he hne hdamage⟩
  · have hheader := Forest.header?_of_leaf hq
    obtain ⟨offset, hoffset⟩ := h.slid_eq payload.length k
    refine ⟨offset, ?_, fun hbehind => ?_, fun hnot => ?_⟩
    · rw [hs.leaf?_after htarget hmoves he, if_neg hpath, hq, Option.map_some, hoffset]
    · have hslid := (hs.toNat_slid hmoves he hbehind).1
      rw [hoffset] at hslid
      exact hslid
    · have hstays : h.slid payload.length k = k := by
        rw [Header.slid, if_neg fun hcond => hnot (hs.behind_iff.mpr ⟨hheader, hcond⟩)]
      exact congrArg Header.offset (hoffset.symm.trans hstays)
  · rintro ⟨c, hc⟩
    refine or_iff_not_imp_left.mpr fun hshrinks q k hq => ?_
    exact hs.stop_lt_of_undo htarget hmoves he hne (by omega) hc hq

/-- The first of three leaves grows by eight bytes. Behind the other two, one of them with a larger
alignment, stand bytes that belong to no leaf. -/
theorem setPayload_undo_longer :
    let forest (x : Bytes) (i j : UInt32) : Forest :=
      ⟨[.ofPayload 1 0 0 x, .ofPayload 2 0 i [2, 2, 2], .ofPayload 3 0x0100 j [3]]⟩
    let before := forest [1, 1, 1, 1] 4 8
    let after := forest [10, 10, 10, 10, 10, 10, 10, 10, 10, 10, 10, 10] 12 16
    let a : Archive := ⟨{ isCompressed := false }, [⟨⟨0, 36, 36, 0, (0, 0, 0)⟩, before.table, none⟩,
      ⟨⟨0, 11, 11, 0, (0, 0, 0)⟩, [1, 1, 1, 1, 2, 2, 2, 9, 3, 8, 8], none⟩], before⟩
    a.InStep ∧ (∀ e ∈ a.forest.walk, e.2.payload? ≠ some [])
      ∧ a.forest.leaf? ⟨0, []⟩ = some (⟨1, 0, 0, 4⟩, [1, 1, 1, 1])
      ∧ (∀ e ∈ a.forest.walk, Forest.follows ⟨0, []⟩ ⟨1, 0, 0, 4⟩ e.1 e.2 = true →
        e.2.header.alignment ∣ e.2.header.offset.toNat ∧ (e.2.header.alignment : Int) ∣ 12 - 4)
      ∧ ∃ b c, a.setPayload ⟨0, []⟩ [10, 10, 10, 10, 10, 10, 10, 10, 10, 10, 10, 10] = .ok b
        ∧ b.forest = after ∧ b.setPayload ⟨0, []⟩ [1, 1, 1, 1] = .ok c
        ∧ c.forest = a.forest ∧ c.dataBlocks = a.dataBlocks := by
  intro forest before after a
  have hs : a.InStep := ⟨by decide +kernel, by decide +kernel⟩
  have hfilled : ∀ e ∈ a.forest.walk, e.2.payload? ≠ some [] := by decide +kernel
  have hfollowing : ∀ e ∈ a.forest.walk, Forest.follows ⟨0, []⟩ ⟨1, 0, 0, 4⟩ e.1 e.2 = true →
      e.2.header.alignment ∣ e.2.header.offset.toNat
        ∧ (e.2.header.alignment : Int) ∣ 12 - 4 := by decide +kernel
  have haligned : ∀ q k, a.forest.Behind ⟨0, []⟩ ⟨1, 0, 0, 4⟩ q k →
      k.alignment ∣ k.offset.toNat ∧ (k.alignment : Int) ∣ 12 - 4 := fun _ _ =>
    Forest.of_behind (fun k => k.alignment ∣ k.offset.toNat ∧ (k.alignment : Int) ∣ 12 - 4) hfollowing
  have hmoves : a.forest.moves ⟨0, []⟩ ⟨1, 0, 0, 4⟩ 12
      = .ok [⟨⟨1, []⟩, .ofPayload 2 0 4 [2, 2, 2], 12⟩, ⟨⟨2, []⟩, .ofPayload 3 0x0100 8 [3], 16⟩] := by
    cbv
  have hset : a.setPayload ⟨0, []⟩ [10, 10, 10, 10, 10, 10, 10, 10, 10, 10, 10, 10] = .ok _ :=
    setPayload_of_moves rfl rfl rfl rfl (by decide) hmoves
  obtain ⟨-, hrestored, hback⟩ :=
    setPayload_undo (hs.packed hfilled 0) rfl (by decide) haligned hset
  obtain ⟨c, hc⟩ := hback.mpr (Or.inl (by decide))
  exact ⟨hs, hfilled, rfl, hfollowing, _, c, hset, by decide +kernel, hc, hrestored c hc⟩

/-- Two leaves of one block, the second of which ends at 4 GiB. -/
def fullForest : Forest :=
  ⟨[.ofPayload 1 0 0 [1, 1, 1, 1, 1, 1, 1, 1],
    .ofPayload 2 0 0xFFFFFFF8 [2, 2, 2, 2, 2, 2, 2, 2]]⟩

/-- When the first leaf gets a shorter payload, the other one moves away from 4 GiB. The old payload
is refused then, as it would move the other one back there. -/
theorem setPayload_undo_refused :
    let a := ofForest fullForest false
    fullForest.Built ∧ a.Packed 0
      ∧ a.forest.leaf? ⟨0, []⟩ = some (⟨1, 0, 0, 8⟩, [1, 1, 1, 1, 1, 1, 1, 1])
      ∧ (∀ q k, a.forest.Behind ⟨0, []⟩ ⟨1, 0, 0, 8⟩ q k →
        k.alignment ∣ k.offset.toNat ∧ (k.alignment : Int) ∣ 4 - 8)
      ∧ ∃ b, a.setPayload ⟨0, []⟩ [9, 9, 9, 9] = .ok b
        ∧ b.setPayload ⟨0, []⟩ [1, 1, 1, 1, 1, 1, 1, 1] = .error (.format (.chunkTooFar "1")) := by
  intro a
  have hbuilt : fullForest.Built := List.forall_mem_cons.mpr
    ⟨.leaf 1 0 0 _, List.forall_mem_singleton.mpr (.leaf 2 0 0xFFFFFFF8 _)⟩
  have hpayloads : ∀ e ∈ fullForest.walk, ∀ x ∈ e.2.payload?, x ≠ [] ∧ x.length < 2 ^ 32 := by
    decide
  have hapart : fullForest.walk.Pairwise fun x y => x.2.Apart y.2 := by decide +kernel
  obtain ⟨hf, -⟩ := filled_ofForest hbuilt hpayloads hapart false
  have hpacked : a.Packed 0 :=
    hf.inStep.packed (fun e he hempty => (hpayloads e he [] hempty).1 rfl) 0
  have hfollowing : ∀ e ∈ fullForest.walk, Forest.follows ⟨0, []⟩ ⟨1, 0, 0, 8⟩ e.1 e.2 = true →
      e.2.header.alignment ∣ e.2.header.offset.toNat
        ∧ (e.2.header.alignment : Int) ∣ 4 - 8 := by decide +kernel
  have haligned : ∀ q k, a.forest.Behind ⟨0, []⟩ ⟨1, 0, 0, 8⟩ q k →
      k.alignment ∣ k.offset.toNat ∧ (k.alignment : Int) ∣ 4 - 8 := fun _ _ =>
    Forest.of_behind (fun k => k.alignment ∣ k.offset.toNat ∧ (k.alignment : Int) ∣ 4 - 8) hfollowing
  -- only headers and moves are computed here, never the block of 4 GiB
  have hmoves : fullForest.moves ⟨0, []⟩ ⟨1, 0, 0, 8⟩ 4
      = .ok [⟨⟨1, []⟩, .ofPayload 2 0 0xFFFFFFF8 [2, 2, 2, 2, 2, 2, 2, 2], 0xFFFFFFF4⟩] := by
    cbv
  have hset : (ofForest fullForest false).setPayload ⟨0, []⟩ [9, 9, 9, 9] = .ok _ :=
    setPayload_of_moves rfl rfl rfl rfl (by decide) hmoves
  have hback : Forest.moves ⟨[.ofPayload 1 0 0 [9, 9, 9, 9],
      .ofPayload 2 0 0xFFFFFFF4 [2, 2, 2, 2, 2, 2, 2, 2]]⟩ ⟨0, []⟩ ⟨1, 0, 0, 4⟩ 8
      = .error (.format (.chunkTooFar "1")) := by cbv
  exact ⟨hbuilt, hpacked, rfl, haligned, _, hset,
    setPayload_of_moves_refused rfl rfl rfl rfl (by decide) hback⟩

end Archive

end ChunkArchive
