import ChunkArchive.Proofs.Chunk.Walk
import ChunkArchive.Proofs.Lists
import Mathlib.Data.Set.Card

/-!
# Walk, paths and places agree

Three ways to the chunks of a forest: the walk meets them in a row, a path leads to one, and the same
path followed step by step leads to its place. They find the same chunks (`Forest.mem_walk`,
`Forest.place?_eq`). As the walk goes by the order of the paths, a search through it finds the least
path (`Forest.findPath?_eq_some_iff`) and its length is the number of paths that lead to a chunk
(`Forest.encard_paths`). What is put into a place is found at its path and inside, and changes
nothing at any path that does not lead through the place or end on the way to it
(`Forest.get?_update_of_apart`). `Forest.walk_get?_place?` says all this of every forest.
-/

set_option autoImplicit false

namespace ChunkArchive

/-- Neither path leads through the end of the other. -/
def Path.Apart (p q : Path) : Prop :=
  ¬ p.positions <+: q.positions ∧ ¬ q.positions <+: p.positions

/-! ## Searching the walk -/

namespace Forest

variable {forest : Forest}

/-- What is found has the property, and all that has it comes later in the walk. -/
theorem least_of_findPath? {holds : Node → Bool} {path : Path}
    (h : forest.findPath? holds = some path) :
    (∃ node, forest.get? path = some node ∧ holds node)
      ∧ ∀ q m, forest.get? q = some m → holds m → q = path ∨ path < q := by
  obtain ⟨⟨path, node⟩, hfirst, rfl⟩ := Option.map_eq_some_iff.mp h
  obtain ⟨hnode, before, behind, hwalk, hnone⟩ := List.find?_eq_some_iff_append.mp hfirst
  have hmem : (path, node) ∈ forest.walk := by simp [hwalk]
  refine ⟨⟨node, mem_walk.mp hmem, hnode⟩, fun q m hq hm => ?_⟩
  have hq := mem_walk.mpr hq
  have hsorted := forest.walk_sorted
  rw [hwalk] at hq hsorted
  rcases List.mem_append.mp hq with hq | hq
  · have hno := hnone (q, m) hq
    simp [hm] at hno
  · rcases List.mem_cons.mp hq with hq | hq
    · exact Or.inl (congrArg Prod.fst hq)
    · have hrest := (List.pairwise_append.mp hsorted).2.1
      exact Or.inr (List.rel_of_pairwise_cons hrest hq)

/-- The search ends at the least path to a chunk with the property. -/
theorem findPath?_eq_some_iff {holds : Node → Bool} {path : Path} :
    forest.findPath? holds = some path ↔
      (∃ node, forest.get? path = some node ∧ holds node)
        ∧ ∀ q m, forest.get? q = some m → holds m → q = path ∨ path < q := by
  constructor
  · exact least_of_findPath?
  · rintro ⟨⟨node, hget, hnode⟩, hmin⟩
    have hsome : (forest.walk.find? fun e => holds e.2).isSome := by
      rw [List.find?_isSome]
      exact ⟨(path, node), mem_walk.mpr hget, hnode⟩
    obtain ⟨e, he⟩ := Option.isSome_iff_exists.mp hsome
    have hfind : forest.findPath? holds = some e.1 := by
      show (forest.walk.find? fun e => holds e.2).map Prod.fst = _
      rw [he]
      rfl
    -- two least paths are the same one
    obtain ⟨⟨m, hm, hholds⟩, hmin'⟩ := least_of_findPath? hfind
    rcases hmin e.1 m hm hholds with heq | hlt
    · rw [hfind, heq]
    · rcases hmin' path node hget hnode with heq | hlt'
      · rw [hfind, heq]
      · exact absurd hlt' (Path.lt_asymm hlt)

theorem findPath?_eq_none_iff {holds : Node → Bool} :
    forest.findPath? holds = none ↔ ∀ q m, forest.get? q = some m → holds m = false := by
  show (forest.walk.find? fun e => holds e.2).map Prod.fst = none ↔ _
  rw [Option.map_eq_none_iff, List.find?_eq_none]
  constructor
  · intro h q m hq
    simpa using h (q, m) (mem_walk.mpr hq)
  · rintro h ⟨q, m⟩ hq
    simp [h q m (mem_walk.mp hq)]

/-- There are as many paths to chunks as the walk has entries. -/
theorem encard_paths (forest : Forest) :
    {path | ∃ node, forest.get? path = some node}.encard = forest.nodeCount := by
  have hpaths : {path | ∃ node, forest.get? path = some node}
      = ((forest.walk.map Prod.fst).toFinset : Set Path) := by
    ext path
    simp [mem_walk]
  calc {path | ∃ node, forest.get? path = some node}.encard
      = (forest.walk.map Prod.fst).toFinset.card := by rw [hpaths, Set.encard_coe_eq_coe_finsetCard]
    _ = (forest.walk.map Prod.fst).length := by
        rw [List.toFinset_card_of_nodup forest.walk_distinct]
    _ = forest.nodeCount := by rw [List.length_map, nodeCount]

end Forest

/-! ## Places -/

namespace Node

/-- Following steps from a place leads to the chunk that the steps lead to, in a place where a chunk
is put by an update. -/
theorem foldlM_inside? (node : Node) (put : Node → Forest) (steps : List Nat) :
    steps.foldlM Place.inside? ⟨node, put⟩
      = (node.follow? steps).map fun n => ⟨n, fun m => put (node.update (fun _ => m) steps)⟩ := by
  induction steps generalizing node put with
  | nil => cases node <;> rfl
  | cons i steps ih =>
      cases node with
      | leaf h payload => rfl
      | branch h cs =>
          rw [List.foldlM_cons, follow?_branch_cons]
          show ((cs[i]?.map _).bind _) = _
          cases hc : cs[i]? with
          | none => rfl
          | some c =>
              rw [Option.map_some, Option.bind_some, Option.bind_some, ih]
              have hset : ∀ m, cs.set i (c.update (fun _ => m) steps)
                  = cs.modify i fun c => c.update (fun _ => m) steps :=
                fun m => set_eq_modify_of_getElem? (fun c => c.update (fun _ => m) steps) hc
              simp only [hset, update]

/-- Changing what is at the end of some steps is not seen at the end of others that go another
way. -/
theorem follow?_update_of_apart {change : Node → Node} {node : Node} {steps q : List Nat}
    (h : ¬ q <+: steps) (h' : ¬ steps <+: q) :
    (node.update change steps).follow? q = node.follow? q := by
  induction steps generalizing node q with
  | nil => exact absurd q.nil_prefix h'
  | cons i steps ih =>
      cases q with
      | nil => exact absurd (List.nil_prefix) h
      | cons j q =>
          cases node with
          | leaf k payload => rfl
          | branch k cs =>
              rw [update, follow?_branch_cons, follow?_branch_cons, List.getElem?_modify]
              by_cases hij : i = j
              · -- the same chunk is entered, so that the ways part inside it
                subst hij
                rw [List.cons_prefix_cons, not_and] at h h'
                have hinside : ∀ c : Node, (c.update change steps).follow? q = c.follow? q :=
                  fun _ => ih (h rfl) (h' rfl)
                cases cs[i]? with
                | none => rfl
                | some c => simpa using hinside c
              · simp [hij]

/-- A chunk is changed at the end of its steps. -/
theorem follow?_update_self {change : Node → Node} {node n : Node} {steps : List Nat}
    (h : node.follow? steps = some n) :
    (node.update change steps).follow? steps = some (change n) := by
  induction steps generalizing node with
  | nil =>
      obtain rfl : node = n := by simpa using h
      rw [update, follow?_nil]
  | cons i steps ih =>
      cases node with
      | leaf k payload => cases h
      | branch k cs =>
          rw [follow?_branch_cons, Option.bind_eq_some_iff] at h
          obtain ⟨c, hc, h⟩ := h
          rw [update, follow?_branch_cons, List.getElem?_modify_eq, hc]
          exact ih h

end Node

namespace Forest

variable {forest : Forest}

/-- **The place at a path is there when the path leads to a chunk**, and what is put into it is put
at the path. -/
theorem place?_eq (forest : Forest) (path : Path) :
    forest.place? path
      = (forest.get? path).map fun node => ⟨node, fun n => forest.update path fun _ => n⟩ := by
  show (forest.roots[path.root]?.map _).bind _ = _
  rw [get?]
  cases hroot : forest.roots[path.root]? with
  | none => rfl
  | some root =>
      rw [Option.map_some, Option.bind_some, Option.bind_some, Node.foldlM_inside?]
      have hset : ∀ n, forest.roots.set path.root (root.update (fun _ => n) path.steps)
          = forest.roots.modify path.root fun root => root.update (fun _ => n) path.steps :=
        fun n => set_eq_modify_of_getElem? (fun root => root.update (fun _ => n) path.steps) hroot
      simp only [hset, update]

/-- An update is seen at no path apart from its own. -/
theorem get?_update_of_apart {change : Node → Node} {p q : Path} (h : q.Apart p) :
    (forest.update p change).get? q = forest.get? q := by
  obtain ⟨r, steps⟩ := p
  obtain ⟨r', steps'⟩ := q
  obtain ⟨h, h'⟩ := h
  show ((forest.roots.modify r _)[r']?).bind _ = _
  rw [List.getElem?_modify, get?]
  by_cases hr : r = r'
  · subst hr
    rw [Path.positions, Path.positions, List.cons_prefix_cons, not_and] at h h'
    have hroot : ∀ root : Node,
        (root.update change steps).follow? steps' = root.follow? steps' :=
      fun root => root.follow?_update_of_apart (h rfl) (h' rfl)
    cases forest.roots[r]? with
    | none => rfl
    | some root => simpa using hroot root
  · simp [hr]

theorem get?_update_self {change : Node → Node} {path : Path} {node : Node}
    (h : forest.get? path = some node) :
    (forest.update path change).get? path = some (change node) := by
  rw [get?, Option.bind_eq_some_iff] at h
  obtain ⟨root, hroot, h⟩ := h
  show ((forest.roots.modify path.root _)[path.root]?).bind _ = _
  rw [List.getElem?_modify_eq, hroot]
  exact Node.follow?_update_self h

/-- **The walk, the paths and the places of a forest agree.** The walk has an entry for every path
that leads to a chunk, and no other, once each and in the order of the paths, which goes by the root
and then by the steps from the left and has every path before those that lead on from it. So a search
finds the least path, and there are as many paths as chunks. The same paths lead to places. To put a
chunk into one is to update the forest at the path: the chunk is found there, and nothing changes at a
path that goes another way. -/
theorem walk_get?_place? (forest : Forest) :
    (∀ path node, (path, node) ∈ forest.walk ↔ forest.get? path = some node)
      ∧ (forest.walk.map Prod.fst).Nodup
      ∧ (forest.walk.map Prod.fst).Pairwise (fun p q => p < q)
      ∧ (∀ p q : Path, p < q ↔ p.root < q.root ∨ p.root = q.root ∧ p.steps < q.steps)
      ∧ (∀ (path : Path) (steps : List Nat), steps ≠ [] →
          path < ⟨path.root, path.steps ++ steps⟩)
      ∧ (∀ holds path, forest.findPath? holds = some path ↔
          (∃ node, forest.get? path = some node ∧ holds node)
            ∧ ∀ q m, forest.get? q = some m → holds m → q = path ∨ path < q)
      ∧ (∀ holds, forest.findPath? holds = none ↔
          ∀ q m, forest.get? q = some m → holds m = false)
      ∧ {path | ∃ node, forest.get? path = some node}.encard = forest.nodeCount
      ∧ (∀ path, (forest.place? path).map Node.Place.node = forest.get? path)
      ∧ ∀ path place, forest.place? path = some place → ∀ node,
          place.put node = forest.update path (fun _ => node)
            ∧ (place.put node).get? path = some node
            ∧ ∀ q : Path, q.Apart path → (place.put node).get? q = forest.get? q := by
  refine ⟨fun _ _ => mem_walk, forest.walk_distinct, ?_, fun _ _ => Path.lt_iff,
    fun path _ => path.lt_append, fun _ _ => findPath?_eq_some_iff,
    fun _ => findPath?_eq_none_iff, forest.encard_paths, fun path => ?_, ?_⟩
  · exact List.pairwise_map.mpr forest.walk_sorted
  · rw [place?_eq, Option.map_map]
    exact Option.map_id' ..
  · intro path place hplace node
    rw [place?_eq] at hplace
    obtain ⟨old, hold, rfl⟩ := Option.map_eq_some_iff.mp hplace
    exact ⟨rfl, get?_update_self hold, fun q => get?_update_of_apart⟩

/-- Another chunk is put in the place of a branch that lies inside another one. -/
theorem walk_get?_place?_nested :
    let inner : Node := .ofChildren 0x5001 0 0 [.ofPayload 3 0 16 [3]]
    let forest : Forest :=
      ⟨[.ofPayload 1 0 0 [1], .ofChildren 0x5000 0 0 [.ofPayload 2 0 8 [2], inner]]⟩
    {path | ∃ node, forest.get? path = some node}.encard = 5
      ∧ ∃ place, forest.place? ⟨1, [1]⟩ = some place ∧ place.node = inner
        ∧ ∀ node, (place.put node).get? ⟨1, [1]⟩ = some node
          ∧ (place.put node).get? ⟨1, [0]⟩ = some (.ofPayload 2 0 8 [2]) := by
  intro inner forest
  obtain ⟨-, -, -, -, -, -, -, hcount, hplaces, hput⟩ := forest.walk_get?_place?
  have hget : forest.get? ⟨1, [1]⟩ = some inner := rfl
  obtain ⟨place, hplace, hnode⟩ := Option.map_eq_some_iff.mp ((hplaces ⟨1, [1]⟩).trans hget)
  refine ⟨hcount, place, hplace, hnode, fun node => ?_⟩
  obtain ⟨-, hself, hothers⟩ := hput _ place hplace node
  have hapart : Path.Apart ⟨1, [0]⟩ ⟨1, [1]⟩ := by
    constructor <;> decide
  exact ⟨hself, (hothers _ hapart).trans rfl⟩

end Forest

end ChunkArchive
