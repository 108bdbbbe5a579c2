import ChunkArchive.Proofs.Archive.Changes
import Mathlib.Data.Prod.Lex
import Mathlib.Order.Bounds.Basic

/-!
# Where the leaves behind a target go

The leaves stored after a target that gets another length are placed one after the other, in the
order of their old offsets. Each goes to the first multiple of its alignment that is neither before
its old offset moved by the difference nor before the end of what has been placed
(`Archive.setPayload_repacked`). Nothing is asked of the archive: leaves may have overlapped, and
chunks may have flags that do not fit their bodies. What is moved are the headers without the flag
of a branch, so forests are looked at through `Forest.header?` here.
-/

set_option autoImplicit false

namespace ChunkArchive

/-! ## The least place -/

theorem alignUp_isLeast (value : Nat) {alignment : Nat} (hpos : 0 < alignment) :
    IsLeast {n | alignment ∣ n ∧ value ≤ n} (alignUp value alignment) := by
  refine ⟨⟨?_, le_alignUp value alignment⟩, ?_⟩
  · rw [alignUp, Nat.max_eq_right hpos]
    exact Nat.dvd_mul_left _ _
  · rintro n ⟨⟨k, rfl⟩, hle⟩
    rw [alignUp, Nat.max_eq_right hpos, Nat.mul_comm alignment k]
    refine Nat.mul_le_mul_right _ (Nat.lt_succ_iff.mp ?_)
    rw [Nat.div_lt_iff_lt_mul hpos, Nat.succ_mul, Nat.mul_comm k alignment]
    omega

theorem Header.alignment_pos (h : Header) : 0 < h.alignment := by
  unfold alignment
  split
  · decide
  · split <;> decide

namespace Forest

theorem spot_isLeast (delta : Int) (placedEnd : Nat) (k : Header) :
    IsLeast {n : Nat | k.alignment ∣ n ∧ k.offset.toNat + delta ≤ n ∧ placedEnd ≤ n}
      (spot delta placedEnd k) := by
  have hwanted := alignUp_isLeast (Int.ofNat k.offset.toNat + delta).toNat k.alignment_pos
  have hplaced := alignUp_isLeast placedEnd k.alignment_pos
  refine ⟨⟨?_, offset_le_spot delta placedEnd k, le_spot delta placedEnd k⟩, ?_⟩
  · unfold spot
    simp only
    split
    · exact hplaced.1.1
    · exact hwanted.1.1
  · rintro n ⟨hdvd, hoffset, hend⟩
    unfold spot
    simp only
    split
    · exact hplaced.2 ⟨hdvd, hend⟩
    · refine hwanted.2 ⟨hdvd, ?_⟩
      simp only [Int.ofNat_eq_natCast]
      omega

/-- Every leaf goes to the least place that there is for it behind those placed before it. -/
theorem isLeast_of_placeFrom {delta : Int} {placedEnd : Nat} {leaves : List (Path × Node)}
    {moves : List Move} (h : placeFrom delta placedEnd leaves = .ok moves) {before after : List Move}
    {m : Move} (hsplit : moves = before ++ m :: after) :
    IsLeast {n : Nat | m.node.header.alignment ∣ n ∧ m.node.header.offset.toNat + delta ≤ n
      ∧ placedEnd ≤ n ∧ ∀ m' ∈ before, m'.stop ≤ n} m.offset := by
  induction leaves generalizing placedEnd moves before with
  | nil =>
      cases h
      simp at hsplit
  | cons leaf leaves ih =>
      obtain ⟨path, node⟩ := leaf
      rw [placeFrom_cons] at h
      simp only at h
      split at h
      · obtain ⟨others, hothers, h⟩ := Outcome.bind_eq_ok.mp h
        obtain rfl := Outcome.pure_eq_ok.mp h
        cases before with
        | nil =>
            obtain ⟨rfl, -⟩ := List.cons.inj hsplit
            simpa using spot_isLeast delta placedEnd node.header
        | cons first before =>
            rw [List.cons_append, List.cons.injEq] at hsplit
            obtain ⟨rfl, hsplit⟩ := hsplit
            -- what is placed now ends behind the first one as well
            have hrest := ih hothers hsplit
            simpa only [max_le_iff, List.forall_mem_cons, and_assoc] using hrest
      · cases h

end Forest

/-! ## The order of packing -/

/-- By offset, then by path. -/
def Header.Before (p : Path) (k : Header) (q : Path) (l : Header) : Prop :=
  k.offset < l.offset ∨ k.offset = l.offset ∧ p < q

instance (p : Path) (k : Header) (q : Path) (l : Header) : Decidable (Header.Before p k q l) :=
  inferInstanceAs (Decidable (_ ∨ _))

namespace Header

/-- What leaves are ordered by. -/
def packingKey (p : Path) (k : Header) : Lex (Nat × List Nat) := toLex (k.offset.toNat, p.positions)

theorem before_iff {p q : Path} {k l : Header} :
    Before p k q l ↔ packingKey p k < packingKey q l := by
  rw [packingKey, packingKey, Prod.Lex.toLex_lt_toLex, Before, UInt32.lt_iff_toNat_lt,
    ← UInt32.toNat_inj]
  rfl

theorem Before.asymm {p q : Path} {k l : Header} (h : Before p k q l) : ¬ Before q l p k :=
  fun h' => lt_asymm (before_iff.mp h) (before_iff.mp h')

theorem before_or_before {p q : Path} (hne : p ≠ q) (k l : Header) :
    Before p k q l ∨ Before q l p k := by
  rw [before_iff, before_iff]
  refine lt_or_gt_of_ne fun heq => hne ?_
  have hpositions := congrArg (fun key => (ofLex key).2) heq
  obtain ⟨r, steps⟩ := p
  obtain ⟨r', steps'⟩ := q
  obtain ⟨rfl, rfl⟩ := List.cons.inj hpositions
  rfl

end Header

namespace Forest

theorem packedBefore_iff {x y : Path × Node} : packedBefore x y = true
    ↔ Header.packingKey x.1 x.2.header ≤ Header.packingKey y.1 y.2.header := by
  rw [← not_lt, ← Header.before_iff, Header.Before]
  have hoffset := lt_trichotomy x.2.header.offset.toNat y.2.header.offset.toNat
  simp only [packedBefore, Bool.or_eq_true, Bool.and_eq_true, decide_eq_true_eq,
    Bool.not_eq_true', decide_eq_false_iff_not, UInt32.lt_iff_toNat_lt, ← UInt32.toNat_inj]
  constructor
  · rintro (hlt | ⟨heq, hpath⟩)
    · omega
    · rintro (hlt | ⟨-, hpath'⟩)
      · omega
      · exact hpath hpath'
  · intro h
    rcases hoffset with hlt | heq | hlt
    · exact Or.inl hlt
    · exact Or.inr ⟨heq, fun hpath => h (Or.inr ⟨heq.symm, hpath⟩)⟩
    · exact absurd (Or.inl hlt) h

/-- The leaves that follow a target are in the order in which they are packed. -/
theorem following_sorted (forest : Forest) (path : Path) (target : Header) :
    (forest.following path target).Pairwise fun x y =>
      Header.Before x.1 x.2.header y.1 y.2.header := by
  have hsorted : (forest.following path target).Pairwise fun x y => packedBefore x y = true := by
    refine List.pairwise_mergeSort (fun x y z hxy hyz => ?_) (fun x y => ?_) _
    · rw [packedBefore_iff] at hxy hyz ⊢
      exact le_trans hxy hyz
    · rw [Bool.or_eq_true, packedBefore_iff, packedBefore_iff]
      exact le_total _ _
  have hdistinct := List.pairwise_map.mp (following_distinct forest path target)
  refine hsorted.imp₂ (fun x y hle hne => ?_) hdistinct
  rw [packedBefore_iff] at hle
  exact (Header.before_or_before hne _ _).resolve_right fun h =>
    not_lt_of_ge hle (Header.before_iff.mp h)

/-! ## Headers -/

/-- The header of the chunk at a path. -/
def header? (forest : Forest) (q : Path) : Option Header := (forest.get? q).map Node.header

theorem header?_of_leaf {forest : Forest} {q : Path} {k : Header} {x : Bytes}
    (hleaf : forest.leaf? q = some (k, x)) : forest.header? q = some k := by
  rw [header?, leaf?_eq_some.mp hleaf]
  rfl

theorem header?_shift (forest : Forest) (m : Move) (q : Path) :
    (forest.shift m).header? q
      = if q = m.path then
          (forest.header? q).map fun k => { k with offset := UInt32.ofNat m.offset }
        else forest.header? q := by
  have hinside : ∀ n : Node, forest.get? m.path = some n →
      (n.withHeader { n.header with offset := UInt32.ofNat m.offset }).children = n.children := by
    intro n _
    cases n <;> rfl
  have hheader : ∀ n : Node, (n.withHeader { n.header with offset := UInt32.ofNat m.offset }).header
      = { n.header with offset := UInt32.ofNat m.offset } := by
    intro n
    cases n <;> rfl
  rw [header?, header?, shift, map_get?_update Node.header (fun _ _ _ => rfl) hinside, Option.map_map]
  simp only [hheader]
  rfl

theorem payload?_shift (forest : Forest) (m : Move) (q : Path) :
    ((forest.shift m).get? q).map Node.payload? = (forest.get? q).map Node.payload? := by
  have hinside : ∀ n : Node, forest.get? m.path = some n →
      (n.withHeader { n.header with offset := UInt32.ofNat m.offset }).children = n.children := by
    intro n _
    cases n <;> rfl
  have hpayload : ∀ n : Node,
      (n.withHeader { n.header with offset := UInt32.ofNat m.offset }).payload? = n.payload? := by
    intro n
    cases n <;> rfl
  rw [shift, map_get?_update Node.payload? (fun _ _ _ => rfl) hinside]
  simp only [hpayload, ite_self]

theorem payload?_shifts (forest : Forest) (moves : List Move) (q : Path) :
    ((moves.foldl shift forest).get? q).map Node.payload? = (forest.get? q).map Node.payload? := by
  induction moves generalizing forest with
  | nil => rfl
  | cons first moves ih => rw [List.foldl_cons, ih, payload?_shift]

theorem header?_shifts {forest : Forest} {moves : List Move}
    (hdistinct : (moves.map Move.path).Nodup) :
    (∀ q, q ∉ moves.map Move.path → (moves.foldl shift forest).header? q = forest.header? q)
      ∧ ∀ m ∈ moves, (moves.foldl shift forest).header? m.path
          = (forest.header? m.path).map fun k => { k with offset := UInt32.ofNat m.offset } := by
  induction moves generalizing forest with
  | nil => exact ⟨fun _ _ => rfl, by simp⟩
  | cons first moves ih =>
      rw [List.map_cons, List.nodup_cons] at hdistinct
      obtain ⟨hstay, hmoved⟩ := @ih (forest.shift first) hdistinct.2
      refine ⟨fun q hq => ?_, fun m hm => ?_⟩
      · rw [List.map_cons, List.mem_cons, not_or] at hq
        rw [List.foldl_cons, hstay q hq.2, header?_shift, if_neg hq.1]
      · rw [List.foldl_cons]
        rcases List.mem_cons.mp hm with rfl | hm
        · rw [hstay m.path hdistinct.1, header?_shift, if_pos rfl]
        · have hne : m.path ≠ first.path := by
            intro heq
            exact hdistinct.1 (heq ▸ List.mem_map_of_mem hm)
          rw [hmoved m hm, header?_shift, if_neg hne]

section Edited

variable {forest : Forest} {path : Path} {h : Header} {old payload : Bytes} {moves : List Move}
  (hplan : forest.Plan path h payload.length moves)
  (htarget : forest.leaf? path = some (h, old))

include hplan htarget

theorem header?_edited (q : Path) :
    (forest.edited path payload moves).header? q
      = if q = path then some { h with size := UInt32.ofNat payload.length }
        else (moves.foldl shift forest).header? q := by
  have hstay : (moves.foldl shift forest).header? path = forest.header? path :=
    (header?_shifts hplan.distinct).1 path (hplan.target_not_mem htarget)
  have hpayload := payload?_shifts forest moves path
  rw [header?_of_leaf htarget, header?] at hstay
  rw [leaf?_eq_some.mp htarget] at hpayload
  have hinside : ∀ n : Node, (moves.foldl shift forest).get? path = some n →
      (Node.leaf { n.header with size := UInt32.ofNat payload.length } payload).children
        = n.children := by
    intro n hn
    rw [hn] at hpayload
    cases n with
    | leaf k x => rfl
    | branch k cs => cases hpayload
  rw [header?, edited_eq, map_get?_update Node.header (fun _ _ _ => rfl) hinside]
  by_cases hq : q = path
  · subst hq
    rw [if_pos rfl, if_pos rfl]
    obtain ⟨n, hn, hheader⟩ := Option.map_eq_some_iff.mp hstay
    rw [hn, ← hheader]
    rfl
  · rw [if_neg hq, if_neg hq, header?]

/-- A chunk that is moved keeps all but its offset. -/
theorem header?_edited_move {m : Move} (hm : m ∈ moves) :
    (forest.edited path payload moves).header? m.path
      = some { m.node.header with offset := UInt32.ofNat m.offset } := by
  have hne : m.path ≠ path := by
    intro heq
    exact hplan.target_not_mem htarget (heq ▸ List.mem_map_of_mem hm)
  have hheader : forest.header? m.path = some m.node.header := by
    rw [header?, (hplan.following m hm).1]
    rfl
  rw [header?_edited hplan htarget, if_neg hne, (header?_shifts hplan.distinct).2 m hm, hheader]
  rfl

end Edited

/-! ## Repacking -/

/-- The chunk at `q` has this header, is a leaf of the target's block by its flag and is stored
after the target: at a larger offset or, where the target is empty, at its offset and later in the
walk. -/
def Behind (forest : Forest) (path : Path) (target : Header) (q : Path) (k : Header) : Prop :=
  forest.header? q = some k ∧ k.hasChildren = false ∧ k.blockIndex = target.blockIndex
    ∧ (target.offset < k.offset ∨ target.size = 0 ∧ k.offset = target.offset ∧ path < q)

theorem behind_iff {forest : Forest} {path q : Path} {target k : Header} :
    forest.Behind path target q k
      ↔ ∃ node, (q, node) ∈ forest.following path target ∧ node.header = k := by
  have hfollows : ∀ node : Node, follows path target q node = true ↔
      node.header.hasChildren = false ∧ node.header.blockIndex = target.blockIndex
        ∧ (target.offset < node.header.offset
          ∨ target.size = 0 ∧ node.header.offset = target.offset ∧ path < q) := by
    intro node
    simp only [follows, Bool.and_eq_true, Bool.or_eq_true, Bool.not_eq_true', decide_eq_true_eq,
      and_assoc]
  simp only [mem_following, hfollows, Behind, header?, Option.map_eq_some_iff]
  constructor
  · rintro ⟨⟨node, hnode, rfl⟩, hbehind⟩
    exact ⟨node, ⟨hnode, hbehind⟩, rfl⟩
  · rintro ⟨node, ⟨hnode, hbehind⟩, rfl⟩
    exact ⟨⟨node, hnode, rfl⟩, hbehind⟩

/-- What the walk shows of all leaves stored after the target holds of each of them. -/
theorem of_behind {forest : Forest} {path q : Path} {target k : Header} (holds : Header → Prop)
    (hall : ∀ e ∈ forest.walk, follows path target e.1 e.2 = true → holds e.2.header)
    (hq : forest.Behind path target q k) : holds k := by
  obtain ⟨node, hnode, rfl⟩ := behind_iff.mp hq
  obtain ⟨hget, hfollows⟩ := mem_following.mp hnode
  exact hall (q, node) (mem_walk.mpr hget) hfollows

/-- What an edit that gives the target the length `size` does to the leaves stored after it. -/
structure Repacked (forest after : Forest) (path : Path) (target : Header) (size : Nat) : Prop where
  resized : after.header? path = some { target with size := UInt32.ofNat size }
  /-- Every leaf goes to the first place that there is for it behind the target and the leaves
  placed before it. -/
  places : ∀ q k, forest.Behind path target q k →
    ∃ offset, after.header? q = some { k with offset }
      ∧ IsLeast {n : Nat | k.alignment ∣ n ∧ k.offset.toNat + size ≤ n + target.size.toNat
          ∧ target.offset.toNat + size ≤ n
          ∧ ∀ p j j', forest.Behind path target p j → Header.Before p j q k →
              after.header? p = some j' → j'.stop ≤ n} offset.toNat
  /-- An empty leaf may come to lie at the same offset as leaves placed after it. -/
  inOrder : ∀ p q j k j' k', forest.Behind path target p j → forest.Behind path target q k →
    Header.Before p j q k → after.header? p = some j' → after.header? q = some k' →
      Header.Before p j' q k' ∨ j.size = 0 ∧ j'.offset = k'.offset
  apart_target : ∀ q k k', forest.Behind path target q k → after.header? q = some k' →
    Header.Apart { target with size := UInt32.ofNat size } k'
  apart : ∀ p q j k j' k', forest.Behind path target p j → forest.Behind path target q k →
    p ≠ q → after.header? p = some j' → after.header? q = some k' → j'.Apart k'

section Repacked

variable {forest : Forest} {path : Path} {h : Header} {old payload : Bytes} {moves : List Move}

/-- Moves are in the order of the leaves that they are of. -/
theorem before_of_split (hmap : moves.map (fun m => (m.path, m.node)) = forest.following path h)
    {before after : List Move} {m : Move} (hsplit : moves = before ++ m :: after) {n : Move} :
    n ∈ before ↔ n ∈ moves ∧ Header.Before n.path n.node.header m.path m.node.header := by
  have hsorted := forest.following_sorted path h
  rw [← hmap, List.pairwise_map, hsplit, List.pairwise_append] at hsorted
  obtain ⟨-, hafter, hbefore⟩ := hsorted
  constructor
  · intro hn
    exact ⟨by rw [hsplit]; simp [hn], hbefore n hn m List.mem_cons_self⟩
  · rintro ⟨hn, hlt⟩
    rw [hsplit, List.mem_append, List.mem_cons] at hn
    rcases hn with hn | rfl | hn
    · exact hn
    · exact absurd hlt hlt.asymm
    · exact absurd hlt ((List.pairwise_cons.mp hafter).1 n hn).asymm

/-- Of two moves the first one ends before the other begins. -/
theorem stop_le_of_before
    (hmap : moves.map (fun m => (m.path, m.node)) = forest.following path h)
    (hinOrder : moves.Pairwise fun m n => m.stop ≤ n.offset) {m n : Move} (hm : m ∈ moves)
    (hn : n ∈ moves) (hlt : Header.Before m.path m.node.header n.path n.node.header) :
    m.stop ≤ n.offset := by
  obtain ⟨before, after, hsplit⟩ := List.append_of_mem hn
  have hmem := (before_of_split hmap hsplit).mpr ⟨hm, hlt⟩
  rw [hsplit, List.pairwise_append] at hinOrder
  exact hinOrder.2.2 m hmem n List.mem_cons_self

/-- The leaves stored after the target are those that are moved. -/
theorem behind_iff_move
    (hmap : moves.map (fun m => (m.path, m.node)) = forest.following path h) {q : Path} {k : Header} :
    forest.Behind path h q k ↔ ∃ m ∈ moves, m.path = q ∧ m.node.header = k := by
  rw [behind_iff, ← hmap]
  constructor
  · rintro ⟨node, hnode, rfl⟩
    obtain ⟨m, hm, heq⟩ := List.mem_map.mp hnode
    obtain ⟨rfl, rfl⟩ := Prod.mk.inj heq
    exact ⟨m, hm, rfl, rfl⟩
  · rintro ⟨m, hm, rfl, rfl⟩
    exact ⟨m.node, List.mem_map_of_mem hm, rfl⟩

/-- A moved leaf has the range of its move. -/
theorem range_of_moved (hplan : forest.Plan path h payload.length moves)
    (htarget : forest.leaf? path = some (h, old)) {m : Move} (hm : m ∈ moves) {k : Header}
    (hk : (forest.edited path payload moves).header? m.path = some k) :
    k.offset.toNat = m.offset ∧ k.stop = m.stop := by
  rw [header?_edited_move hplan htarget hm, Option.some.injEq] at hk
  subst hk
  have hoffset := hplan.toNat_offset hm
  exact ⟨hoffset, congrArg (· + m.node.header.size.toNat) hoffset⟩

theorem repacked_edited (htarget : forest.leaf? path = some (h, old))
    (hshort : payload.length < 2 ^ 32) (hplan : forest.Plan path h payload.length moves)
    (hplaced : placeFrom (payload.length - h.size.toNat) (h.offset.toNat + payload.length)
      (forest.following path h) = .ok moves) :
    forest.Repacked (forest.edited path payload moves) path h payload.length := by
  obtain ⟨hmap, -, hinOrder⟩ := placeFrom_eq_ok hplaced
  refine ⟨?_, ?_, ?_, ?_, ?_⟩
  · rw [header?_edited hplan htarget, if_pos rfl]
  · intro q k hq
    obtain ⟨m, hm, rfl, rfl⟩ := (behind_iff_move hmap).mp hq
    refine ⟨_, header?_edited_move hplan htarget hm, ?_⟩
    rw [hplan.toNat_offset hm]
    obtain ⟨before, after, hsplit⟩ := List.append_of_mem hm
    obtain ⟨⟨hdvd, hdelta, hend, -⟩, hleast⟩ := isLeast_of_placeFrom hplaced hsplit
    refine ⟨⟨hdvd, by omega, hend, ?_⟩, ?_⟩
    · intro p j j' hp hlt hj'
      obtain ⟨n, hn, rfl, rfl⟩ := (behind_iff_move hmap).mp hp
      rw [(range_of_moved hplan htarget hn hj').2]
      exact stop_le_of_before hmap hinOrder hn hm hlt
    · -- a place that the leaves before it leave is one that the moves before it leave
      rintro i ⟨hdvd', hdelta', hend', hbefore⟩
      refine hleast ⟨hdvd', by omega, hend', fun n hn => ?_⟩
      obtain ⟨hn, hlt⟩ := (before_of_split hmap hsplit).mp hn
      have hheader := header?_edited_move hplan htarget hn
      rw [← (range_of_moved hplan htarget hn hheader).2]
      exact hbefore n.path n.node.header _ ((behind_iff_move hmap).mpr ⟨n, hn, rfl, rfl⟩) hlt hheader
  · intro p q j k j' k' hp hq hlt hj' hk'
    obtain ⟨m, hm, rfl, rfl⟩ := (behind_iff_move hmap).mp hp
    obtain ⟨n, hn, rfl, rfl⟩ := (behind_iff_move hmap).mp hq
    have hstop := stop_le_of_before hmap hinOrder hm hn hlt
    obtain ⟨hj', -⟩ := range_of_moved hplan htarget hm hj'
    obtain ⟨hk', -⟩ := range_of_moved hplan htarget hn hk'
    rw [Move.stop] at hstop
    by_cases hsame : j'.offset = k'.offset
    · refine Or.inr ⟨UInt32.toNat_inj.mp ?_, hsame⟩
      have := congrArg UInt32.toNat hsame
      show m.node.header.size.toNat = 0
      omega
    · refine Or.inl (Or.inl (UInt32.lt_iff_toNat_lt.mpr ?_))
      have : j'.offset.toNat ≠ k'.offset.toNat := fun heq => hsame (UInt32.toNat_inj.mp heq)
      omega
  · intro q k k' hq hk'
    obtain ⟨m, hm, rfl, rfl⟩ := (behind_iff_move hmap).mp hq
    have hle := hplan.le_offset m hm
    refine Header.apart_of_le ?_
    rw [(range_of_moved hplan htarget hm hk').1]
    show h.offset.toNat + (UInt32.ofNat payload.length).toNat ≤ m.offset
    rwa [UInt32.toNat_ofNat_of_lt' hshort]
  · intro p q j k j' k' hp hq hne hj' hk'
    obtain ⟨m, hm, rfl, rfl⟩ := (behind_iff_move hmap).mp hp
    obtain ⟨n, hn, rfl, rfl⟩ := (behind_iff_move hmap).mp hq
    obtain ⟨hjoffset, hjstop⟩ := range_of_moved hplan htarget hm hj'
    obtain ⟨hkoffset, hkstop⟩ := range_of_moved hplan htarget hn hk'
    rcases Header.before_or_before hne m.node.header n.node.header with hlt | hlt
    · refine Header.apart_of_le ?_
      rw [hjstop, hkoffset]
      exact stop_le_of_before hmap hinOrder hm hn hlt
    · refine (Header.apart_of_le ?_).symm
      rw [hkstop, hjoffset]
      exact stop_le_of_before hmap hinOrder hn hm hlt

end Repacked

end Forest

namespace Archive

/-- **After an edit that changes the length of the target the leaves stored after it lie one behind
the other**, each at the least place that its alignment, the difference of lengths and the leaves
before it leave it. -/
theorem setPayload_repacked {a b : Archive} {path : Path} {h : Header} {payload : Bytes}
    (hset : a.setPayload path payload = .ok b) (htarget : a.forest.header? path = some h)
    (hlen : payload.length ≠ h.size.toNat) :
    a.forest.Repacked b.forest path h payload.length := by
  obtain ⟨h', old, -, -, hleaf, -, -⟩ := target_of_setPayload hset
  obtain rfl : h' = h := Option.some.inj ((Forest.header?_of_leaf hleaf).symm.trans htarget)
  obtain ⟨moves, block, hmoves, he⟩ := edited_by_moves hleaf hset
  unfold Forest.moves at hmoves
  simp only at hmoves
  rw [if_neg (by simp only [Int.ofNat_eq_natCast]; omega)] at hmoves
  rw [he.forest]
  exact Forest.repacked_edited hleaf he.short he.plan hmoves

/-- Three leaves that overlap, the last of them with a larger alignment. The first one gets shorter
by one byte. -/
theorem setPayload_repacked_overlapping :
    let a := ofForest ⟨[.ofPayload 1 0 0 [1, 1, 1, 1], .ofPayload 2 0 2 [2, 2, 2, 2],
      .ofPayload 3 0x0100 3 [3]]⟩ false
    ∃ b, a.setPayload ⟨0, []⟩ [10, 10, 10] = .ok b
      ∧ a.forest.header? ⟨0, []⟩ = some ⟨1, 0, 0, 4⟩
      ∧ a.forest.Repacked b.forest ⟨0, []⟩ ⟨1, 0, 0, 4⟩ 3
      ∧ b.forest = ⟨[.ofPayload 1 0 0 [10, 10, 10], .ofPayload 2 0 4 [2, 2, 2, 2],
        .ofPayload 3 0x0100 8 [3]]⟩ := by
  intro a
  have hmoves : a.forest.moves ⟨0, []⟩ ⟨1, 0, 0, 4⟩ 3
      = .ok [⟨⟨1, []⟩, .ofPayload 2 0 2 [2, 2, 2, 2], 4⟩,
        ⟨⟨2, []⟩, .ofPayload 3 0x0100 3 [3], 8⟩] := by cbv
  have hset : a.setPayload ⟨0, []⟩ [10, 10, 10] = .ok _ :=
    setPayload_of_moves rfl rfl rfl rfl (by decide) hmoves
  exact ⟨_, hset, rfl, setPayload_repacked hset rfl (by decide), by decide +kernel⟩

/-- An empty leaf at offset 5 comes before a leaf at offset 6 that is earlier in the walk. Both go to
offset 8, where the other one comes first. -/
theorem setPayload_order_lost :
    let a := ofForest ⟨[.ofPayload 1 0 0 [1, 1, 1, 1], .ofPayload 2 0 6 [2], .ofPayload 3 0 5 []]⟩
      false
    a.forest.Behind ⟨0, []⟩ ⟨1, 0, 0, 4⟩ ⟨2, []⟩ ⟨3, 0, 5, 0⟩
      ∧ a.forest.Behind ⟨0, []⟩ ⟨1, 0, 0, 4⟩ ⟨1, []⟩ ⟨2, 0, 6, 1⟩
      ∧ Header.Before ⟨2, []⟩ ⟨3, 0, 5, 0⟩ ⟨1, []⟩ ⟨2, 0, 6, 1⟩
      ∧ ∃ b, a.setPayload ⟨0, []⟩ [10, 10, 10, 10, 10] = .ok b
        ∧ b.forest.header? ⟨2, []⟩ = some ⟨3, 0, 8, 0⟩
        ∧ b.forest.header? ⟨1, []⟩ = some ⟨2, 0, 8, 1⟩
        ∧ ¬ Header.Before ⟨2, []⟩ ⟨3, 0, 8, 0⟩ ⟨1, []⟩ ⟨2, 0, 8, 1⟩ := by
  intro a
  have hmoves : a.forest.moves ⟨0, []⟩ ⟨1, 0, 0, 4⟩ 5
      = .ok [⟨⟨2, []⟩, .ofPayload 3 0 5 [], 8⟩, ⟨⟨1, []⟩, .ofPayload 2 0 6 [2], 8⟩] := by cbv
  have hset : a.setPayload ⟨0, []⟩ [10, 10, 10, 10, 10] = .ok _ :=
    setPayload_of_moves rfl rfl rfl rfl (by decide) hmoves
  refine ⟨⟨rfl, by decide, by decide, by decide⟩, ⟨rfl, by decide, by decide, by decide⟩, by decide,
    _, hset, rfl, rfl, by decide⟩

end Archive

end ChunkArchive
