import ChunkArchive.Chunk.Forest
import Mathlib.Tactic

/-!
# The walk and the paths of a forest

The walk through a forest and the paths into it are two views of the same chunks: the walk meets a
chunk at a path exactly when the path leads to it (`Forest.mem_walk`), it meets every path once, and
in the order of the paths (`Forest.walk_sorted`).
-/

set_option autoImplicit false

namespace ChunkArchive

/-! ## Induction over a chunk -/

namespace Node

/-- A property of all leaves that passes from the chunks inside a branch to the branch holds of
every chunk. -/
@[elab_as_elim, induction_eliminator]
theorem induction {P : Node → Prop} (leaf : ∀ h payload, P (.leaf h payload))
    (branch : ∀ h cs, (∀ c ∈ cs, P c) → P (.branch h cs)) : ∀ node, P node
  | .leaf h payload => leaf h payload
  | .branch h cs => branch h cs fun c _ => induction leaf branch c

end Node

namespace Path

@[simp] theorem ofRoot_root (i : Nat) : (ofRoot i).root = i := rfl

@[simp] theorem ofRoot_steps (i : Nat) : (ofRoot i).steps = [] := rfl

@[simp] theorem child_root (path : Path) (i : Nat) : (path.child i).root = path.root := rfl

@[simp] theorem child_steps (path : Path) (i : Nat) : (path.child i).steps = path.steps ++ [i] := rfl

@[simp] theorem ofRoot_depth (i : Nat) : (ofRoot i).depth = 0 := rfl

@[simp] theorem child_depth (path : Path) (i : Nat) : (path.child i).depth = path.depth + 1 := by
  simp [depth]

theorem lt_irrefl (path : Path) : ¬ path < path := List.lt_irrefl path.positions

theorem lt_asymm {p q : Path} (h : p < q) : ¬ q < p := List.lt_asymm h

/-- Paths are ordered by their roots and then by their steps. -/
theorem lt_iff {p q : Path} : p < q ↔ p.root < q.root ∨ p.root = q.root ∧ p.steps < q.steps :=
  List.cons_lt_cons_iff

/-- A path comes before all those that lead on from it. -/
theorem lt_append (path : Path) {steps : List Nat} (h : steps ≠ []) :
    path < ⟨path.root, path.steps ++ steps⟩ := by
  obtain ⟨i, rest, rfl⟩ := List.exists_cons_of_ne_nil h
  have hsteps : path.steps ++ [] < path.steps ++ i :: rest :=
    List.append_left_lt (List.nil_lt_cons i rest)
  rw [List.append_nil] at hsteps
  exact lt_iff.mpr (Or.inr ⟨rfl, hsteps⟩)

/-- Of two paths one comes first. -/
theorem lt_or_lt_of_ne {p q : Path} (h : p ≠ q) : p < q ∨ q < p := by
  have hne : p.positions ≠ q.positions := by
    intro heq
    obtain ⟨hroot, hsteps⟩ := List.cons.inj heq
    obtain ⟨r, steps⟩ := p
    obtain ⟨r', steps'⟩ := q
    exact h (by rw [show r = r' from hroot, show steps = steps' from hsteps])
  exact lt_or_gt_of_ne hne

end Path

/-! ## What the walk meets -/

namespace Node

@[simp] theorem follow?_nil (node : Node) : node.follow? [] = some node := by
  cases node <;> rfl

@[simp] theorem follow?_leaf_cons (h : Header) (payload : Bytes) (i : Nat) (steps : List Nat) :
    (Node.leaf h payload).follow? (i :: steps) = none := rfl

theorem follow?_branch_cons (h : Header) (cs : List Node) (i : Nat) (steps : List Nat) :
    (Node.branch h cs).follow? (i :: steps) = cs[i]?.bind fun c => c.follow? steps := rfl

theorem follow?_append (node : Node) (steps steps' : List Nat) :
    node.follow? (steps ++ steps') = (node.follow? steps).bind fun n => n.follow? steps' := by
  induction steps generalizing node with
  | nil => simp
  | cons i steps ih =>
      cases node with
      | leaf h payload => rfl
      | branch h cs =>
          rw [List.cons_append, follow?_branch_cons, follow?_branch_cons, Option.bind_assoc]
          exact Option.bind_congr fun c _ => ih c

theorem mem_walkFrom {path : Path} {i : Nat} {cs : List Node} {e : Path × Node} :
    e ∈ walkFrom path i cs ↔
      ∃ (j : Nat) (c : Node), cs[j]? = some c ∧ e ∈ c.walk (path.child (i + j)) := by
  induction cs generalizing i with
  | nil => simp [walkFrom]
  | cons n ns ih =>
      rw [walkFrom, List.mem_append, ih]
      constructor
      · rintro (h | ⟨j, c, hc, h⟩)
        · exact ⟨0, n, rfl, h⟩
        · refine ⟨j + 1, c, hc, ?_⟩
          rwa [show i + (j + 1) = i + 1 + j by omega]
      · rintro ⟨j, c, hc, h⟩
        cases j with
        | zero =>
            obtain rfl : n = c := by simpa using hc
            exact Or.inl h
        | succ j =>
            refine Or.inr ⟨j, c, by simpa using hc, ?_⟩
            rwa [show i + 1 + j = i + (j + 1) by omega]

/-- The walk through a chunk meets what the steps from it lead to. -/
theorem mem_walk {node : Node} {path q : Path} {n : Node} :
    (q, n) ∈ node.walk path ↔
      ∃ steps, q = ⟨path.root, path.steps ++ steps⟩ ∧ node.follow? steps = some n := by
  induction node generalizing path with
  | leaf h payload =>
      rw [walk, List.mem_singleton, Prod.mk.injEq]
      constructor
      · rintro ⟨rfl, rfl⟩
        exact ⟨[], by simp, rfl⟩
      · rintro ⟨steps, rfl, hn⟩
        cases steps with
        | nil => exact ⟨by simp, (by simpa using hn.symm)⟩
        | cons i steps => cases hn
  | branch h cs ih =>
      rw [walk, List.mem_cons, mem_walkFrom, Prod.mk.injEq]
      constructor
      · rintro (⟨rfl, rfl⟩ | ⟨j, c, hc, hq⟩)
        · exact ⟨[], by simp, by simp⟩
        · obtain ⟨steps, rfl, hn⟩ := (ih c (List.mem_of_getElem? hc)).mp hq
          refine ⟨j :: steps, by simp, ?_⟩
          rw [follow?_branch_cons, hc, Option.bind_some, hn]
      · rintro ⟨steps, rfl, hn⟩
        cases steps with
        | nil => exact Or.inl ⟨by simp, by simpa using hn.symm⟩
        | cons i steps =>
            rw [follow?_branch_cons, Option.bind_eq_some_iff] at hn
            obtain ⟨c, hc, hn⟩ := hn
            refine Or.inr ⟨i, c, hc, (ih c (List.mem_of_getElem? hc)).mpr ⟨steps, ?_, hn⟩⟩
            simp

theorem mem_walk_self (node : Node) (path : Path) : (path, node) ∈ node.walk path :=
  mem_walk.mpr ⟨[], by simp, by simp⟩

end Node

namespace Forest

theorem get?_append (forest : Forest) (path : Path) (steps : List Nat) :
    forest.get? ⟨path.root, path.steps ++ steps⟩
      = (forest.get? path).bind fun node => node.follow? steps := by
  rw [get?, get?, Option.bind_assoc]
  exact Option.bind_congr fun root _ => root.follow?_append path.steps steps

theorem mem_walk {forest : Forest} {path : Path} {node : Node} :
    (path, node) ∈ forest.walk ↔ forest.get? path = some node := by
  rw [walk, List.mem_flatMap, get?, Option.bind_eq_some_iff]
  constructor
  · rintro ⟨⟨root, i⟩, hroot, hmem⟩
    obtain ⟨steps, rfl, hn⟩ := Node.mem_walk.mp hmem
    exact ⟨root, List.mk_mem_zipIdx_iff_getElem?.mp hroot, hn⟩
  · rintro ⟨root, hroot, hn⟩
    refine ⟨(root, path.root), List.mk_mem_zipIdx_iff_getElem?.mpr hroot, ?_⟩
    exact Node.mem_walk.mpr ⟨path.steps, by simp, hn⟩

end Forest

/-! ## The order of the walk -/

namespace Node

/-- Of two chunks inside a chunk, the one at the smaller position has the smaller path. -/
theorem lt_of_mem_walk_child {path p q : Path} {i j : Nat} {a b n m : Node} (hij : i < j)
    (hp : (p, n) ∈ a.walk (path.child i)) (hq : (q, m) ∈ b.walk (path.child j)) : p < q := by
  obtain ⟨s, rfl, -⟩ := mem_walk.mp hp
  obtain ⟨t, rfl, -⟩ := mem_walk.mp hq
  show path.root :: (path.steps ++ [i] ++ s) < path.root :: (path.steps ++ [j] ++ t)
  rw [List.cons_lt_cons_iff]
  refine Or.inr ⟨rfl, ?_⟩
  rw [List.append_assoc, List.append_assoc]
  apply List.append_left_lt
  exact List.cons_lt_cons_iff.mpr (Or.inl hij)

/-- A chunk has a smaller path than those inside it. -/
theorem lt_of_mem_walk_inside {path q : Path} {i : Nat} {c m : Node}
    (hq : (q, m) ∈ c.walk (path.child i)) : path < q := by
  obtain ⟨t, rfl, -⟩ := mem_walk.mp hq
  have h := path.lt_append (List.cons_ne_nil i t)
  simpa using h

theorem walkFrom_sorted {path : Path} {i : Nat} {cs : List Node}
    (h : ∀ c ∈ cs, ∀ j, (c.walk (path.child j)).Pairwise fun x y => x.1 < y.1) :
    (walkFrom path i cs).Pairwise fun x y => x.1 < y.1 := by
  induction cs generalizing i with
  | nil => exact List.Pairwise.nil
  | cons n ns ih =>
      rw [walkFrom, List.pairwise_append]
      refine ⟨h n (by simp) i, ih fun c hc => h c (by simp [hc]), ?_⟩
      rintro ⟨p, a⟩ hp ⟨q, b⟩ hq
      obtain ⟨j, c, -, hq⟩ := mem_walkFrom.mp hq
      exact lt_of_mem_walk_child (by omega) hp hq

theorem walk_sorted (node : Node) (path : Path) :
    (node.walk path).Pairwise fun x y => x.1 < y.1 := by
  induction node generalizing path with
  | leaf h payload => exact List.pairwise_singleton _ _
  | branch h cs ih =>
      rw [walk, List.pairwise_cons]
      refine ⟨?_, walkFrom_sorted fun c hc j => ih c hc (path.child j)⟩
      rintro ⟨q, m⟩ hq
      obtain ⟨j, c, -, hq⟩ := mem_walkFrom.mp hq
      exact lt_of_mem_walk_inside hq

end Node

namespace Forest

/-- **The walk is in the order of the paths.** -/
theorem walk_sorted (forest : Forest) : forest.walk.Pairwise fun x y => x.1 < y.1 := by
  rw [walk, List.pairwise_flatMap]
  refine ⟨fun x _ => Node.walk_sorted _ _, ?_⟩
  have hidx : forest.roots.zipIdx.Pairwise fun x y => x.2 < y.2 := by
    have h := List.pairwise_lt_range (n := forest.roots.length)
    rwa [List.range_eq_range', ← List.zipIdx_map_snd 0 forest.roots, List.pairwise_map] at h
  refine hidx.imp fun {x y} hxy => ?_
  rintro ⟨p, n⟩ hp ⟨q, m⟩ hq
  obtain ⟨s, rfl, -⟩ := Node.mem_walk.mp hp
  obtain ⟨t, rfl, -⟩ := Node.mem_walk.mp hq
  exact List.cons_lt_cons_iff.mpr (Or.inl hxy)

/-- The walk meets every path once. -/
theorem walk_distinct (forest : Forest) : (forest.walk.map Prod.fst).Nodup := by
  rw [List.Nodup, List.pairwise_map]
  refine forest.walk_sorted.imp fun {x y} hlt heq => ?_
  rw [heq] at hlt
  exact Path.lt_irrefl _ hlt

end Forest

end ChunkArchive
