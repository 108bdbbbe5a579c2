import ChunkArchive.Proofs.Chunk.Walk

/-!
# Changing a leaf of a forest

A forest is looked at through two maps from paths: what the leaf at a path is (`Forest.leaf?`),
and what the branch at a path is, with the length of what is inside it (`Forest.branch?`).
Changing a leaf into a leaf changes the first map at one path and the second nowhere
(`Forest.leaf?_update`, `Forest.branch?_update`).
-/

set_option autoImplicit false

namespace ChunkArchive

/-! ## The two views -/

namespace Node

def leaf? : Node → Option (Header × Bytes)
  | .leaf h payload => some (h, payload)
  | .branch _ _ => none

/-- The header of a branch, and the length of the headers inside it. -/
def branch? : Node → Option (Header × Nat)
  | .leaf _ _ => none
  | .branch h cs => some (h, tableLengths cs)

theorem leaf?_eq_some {node : Node} {h : Header} {payload : Bytes} :
    node.leaf? = some (h, payload) ↔ node = .leaf h payload := by
  cases node with
  | leaf h' payload' => simp [leaf?]
  | branch h' cs => simp [leaf?]

theorem branch?_eq_some {node : Node} {h : Header} {n : Nat} :
    node.branch? = some (h, n) ↔ ∃ cs, node = .branch h cs ∧ n = tableLengths cs := by
  cases node with
  | leaf h' payload => simp [branch?]
  | branch h' cs =>
      simp only [branch?, Option.some.injEq, Prod.mk.injEq, branch.injEq]
      constructor
      · rintro ⟨rfl, rfl⟩
        exact ⟨cs, ⟨rfl, rfl⟩, rfl⟩
      · rintro ⟨_, ⟨rfl, rfl⟩, rfl⟩
        exact ⟨rfl, rfl⟩

end Node

namespace Forest

def leaf? (forest : Forest) (path : Path) : Option (Header × Bytes) :=
  (forest.get? path).bind Node.leaf?

def branch? (forest : Forest) (path : Path) : Option (Header × Nat) :=
  (forest.get? path).bind Node.branch?

theorem leaf?_eq_some {forest : Forest} {path : Path} {h : Header} {payload : Bytes} :
    forest.leaf? path = some (h, payload) ↔ forest.get? path = some (.leaf h payload) := by
  rw [leaf?, Option.bind_eq_some_iff]
  simp only [Node.leaf?_eq_some, exists_eq_right]

/-- The payload at a path is that of the leaf there. -/
theorem payload?_get? (forest : Forest) (path : Path) :
    (forest.get? path).bind Node.payload? = (forest.leaf? path).map Prod.snd := by
  rw [leaf?]
  cases forest.get? path with
  | none => rfl
  | some node => cases node <;> rfl

theorem branch?_eq_some {forest : Forest} {path : Path} {h : Header} {n : Nat} :
    forest.branch? path = some (h, n) ↔
      ∃ cs, forest.get? path = some (.branch h cs) ∧ n = Node.tableLengths cs := by
  rw [branch?, Option.bind_eq_some_iff]
  simp only [Node.branch?_eq_some]
  constructor
  · rintro ⟨node, hnode, cs, rfl, rfl⟩
    exact ⟨cs, hnode, rfl⟩
  · rintro ⟨cs, hnode, rfl⟩
    exact ⟨_, hnode, cs, rfl, rfl⟩

/-- A chunk is seen in one of the two views. -/
theorem get?_cases {forest : Forest} {path : Path} {node : Node}
    (h : forest.get? path = some node) :
    (∃ k payload, node = .leaf k payload ∧ forest.leaf? path = some (k, payload))
      ∨ ∃ k cs, node = .branch k cs ∧ forest.branch? path = some (k, Node.tableLengths cs) := by
  cases node with
  | leaf k payload => exact Or.inl ⟨k, payload, rfl, leaf?_eq_some.mpr h⟩
  | branch k cs => exact Or.inr ⟨k, cs, rfl, branch?_eq_some.mpr ⟨cs, h, rfl⟩⟩

end Forest

/-! ### What the views say together -/

namespace Node

/-- Lists of chunks are the same if the two views see the same in them. -/
theorem eq_of_views {cs ds : List Node}
    (hchunk : ∀ c ∈ cs, ∀ d,
      (∀ steps, (c.follow? steps).bind leaf? = (d.follow? steps).bind leaf?) →
      (∀ steps, (c.follow? steps).bind branch? = (d.follow? steps).bind branch?) → c = d)
    (hleaf : ∀ (i : Nat) steps, (cs[i]?.bind fun c => c.follow? steps).bind leaf?
      = (ds[i]?.bind fun d => d.follow? steps).bind leaf?)
    (hbranch : ∀ (i : Nat) steps, (cs[i]?.bind fun c => c.follow? steps).bind branch?
      = (ds[i]?.bind fun d => d.follow? steps).bind branch?) : cs = ds := by
  apply List.ext_getElem?
  intro i
  have hleaf := hleaf i
  have hbranch := hbranch i
  -- a chunk on one side alone would be seen there as a leaf or as a branch
  cases hc : cs[i]? with
  | none =>
      cases hd : ds[i]? with
      | none => rfl
      | some d =>
          rw [hc, hd] at hleaf hbranch
          have hd := (hleaf []).symm
          have hd' := (hbranch []).symm
          rw [Option.bind_some, follow?_nil] at hd hd'
          cases d with
          | leaf h x => cases hd
          | branch h ds => cases hd'
  | some c =>
      cases hd : ds[i]? with
      | none =>
          rw [hc, hd] at hleaf hbranch
          have hc := hleaf []
          have hc' := hbranch []
          rw [Option.bind_some, follow?_nil] at hc hc'
          cases c with
          | leaf h x => cases hc
          | branch h cs => cases hc'
      | some d =>
          rw [hc, hd] at hleaf hbranch
          exact congrArg some (hchunk c (List.mem_of_getElem? hc) d hleaf hbranch)

theorem ext_views {node other : Node}
    (hleaf : ∀ steps, (node.follow? steps).bind leaf? = (other.follow? steps).bind leaf?)
    (hbranch : ∀ steps, (node.follow? steps).bind branch? = (other.follow? steps).bind branch?) :
    node = other := by
  induction node generalizing other with
  | leaf h x =>
      have hself := (hleaf []).symm
      rw [follow?_nil, follow?_nil] at hself
      exact (leaf?_eq_some.mp hself).symm
  | branch h cs ih =>
      have hself := (hbranch []).symm
      rw [follow?_nil, follow?_nil] at hself
      obtain ⟨ds, rfl, -⟩ := branch?_eq_some.mp hself
      refine congrArg (branch h) (eq_of_views (fun c hc d => ih c hc) (fun i steps => ?_) ?_)
      · exact hleaf (i :: steps)
      · exact fun i steps => hbranch (i :: steps)

end Node

/-- **A forest is what the two views see.** -/
theorem Forest.ext_views {forest other : Forest} (hleaf : ∀ path, forest.leaf? path = other.leaf? path)
    (hbranch : ∀ path, forest.branch? path = other.branch? path) : forest = other := by
  obtain ⟨cs⟩ := forest
  obtain ⟨ds⟩ := other
  refine congrArg Forest.mk (Node.eq_of_views (fun _ _ _ => Node.ext_views) ?_ ?_)
  · exact fun i steps => hleaf ⟨i, steps⟩
  · exact fun i steps => hbranch ⟨i, steps⟩

/-! ## One change -/

namespace Node

theorem tableLengths_modify {cs : List Node} {i : Nat} {c : Node} {f : Node → Node}
    (hc : cs[i]? = some c) (hf : (f c).tableLength = c.tableLength) :
    tableLengths (cs.modify i f) = tableLengths cs := by
  induction cs generalizing i with
  | nil => simp at hc
  | cons d ds ih =>
      cases i with
      | zero =>
          obtain rfl : d = c := by simpa using hc
          rw [List.modify_zero_cons, tableLengths, tableLengths, hf]
      | succ i =>
          rw [List.modify_succ_cons, tableLengths, tableLengths, ih (by simpa using hc)]

section Update

variable {change : Node → Node} {h h' : Header} {payload payload' : Bytes}

/-- Changing a leaf keeps the length in the table. -/
theorem tableLength_update (hchange : change (.leaf h payload) = .leaf h' payload') {node : Node}
    {steps : List Nat} (hleaf : node.follow? steps = some (.leaf h payload)) :
    (node.update change steps).tableLength = node.tableLength := by
  induction steps generalizing node with
  | nil =>
      obtain rfl : node = .leaf h payload := by simpa using hleaf
      rw [update, hchange]
      rfl
  | cons i steps ih =>
      cases node with
      | leaf k x => cases hleaf
      | branch k cs =>
          rw [follow?_branch_cons, Option.bind_eq_some_iff] at hleaf
          obtain ⟨c, hc, hleaf⟩ := hleaf
          rw [update, tableLength, tableLength, tableLengths_modify hc (ih hleaf)]

/-- What steps lead to after a leaf has been changed, through a view that sees of a branch no more
than how long the headers inside it are. -/
theorem follow?_update {α : Type} (view : Node → Option α)
    (hview : ∀ k cs i c f, cs[i]? = some c → (f c).tableLength = c.tableLength →
      view (.branch k (cs.modify i f)) = view (.branch k cs))
    (hchange : change (.leaf h payload) = .leaf h' payload') {node : Node} {steps : List Nat}
    (hleaf : node.follow? steps = some (.leaf h payload)) (q : List Nat) :
    ((node.update change steps).follow? q).bind view
      = if q = steps then view (.leaf h' payload') else (node.follow? q).bind view := by
  induction steps generalizing node q with
  | nil =>
      obtain rfl : node = .leaf h payload := by simpa using hleaf
      rw [update, hchange]
      cases q with
      | nil => simp
      | cons j q => simp
  | cons i steps ih =>
      cases node with
      | leaf k x => cases hleaf
      | branch k cs =>
          rw [follow?_branch_cons, Option.bind_eq_some_iff] at hleaf
          obtain ⟨c, hc, hleaf⟩ := hleaf
          rw [update]
          cases q with
          | nil =>
              -- the branch itself: only something below it has been changed
              rw [follow?_nil, follow?_nil, Option.bind_some, Option.bind_some,
                hview k cs i c _ hc (tableLength_update hchange hleaf)]
              simp
          | cons j q =>
              rw [follow?_branch_cons, follow?_branch_cons, List.getElem?_modify]
              by_cases hij : i = j
              · subst hij
                have := ih hleaf q
                simp only [hc, Option.bind_some, if_true, List.cons.injEq, true_and]
                exact this
              · have hne : ¬ (j :: q = i :: steps) := by
                  rintro heq
                  exact hij (List.cons.inj heq).1.symm
                rw [if_neg hne]
                simp [hij]

end Update

/-- A change that leaves alone what is inside a chunk is seen at the end of its steps and nowhere
else, through a view that sees nothing of what is inside a branch. -/
theorem map_follow?_update {α : Type} (view : Node → α)
    (hview : ∀ k cs ds, view (.branch k cs) = view (.branch k ds)) {change : Node → Node}
    {node : Node} {steps : List Nat}
    (hinside : ∀ n, node.follow? steps = some n → (change n).children = n.children)
    (q : List Nat) :
    ((node.update change steps).follow? q).map view
      = if q = steps then (node.follow? q).map fun n => view (change n)
        else (node.follow? q).map view := by
  induction steps generalizing node q with
  | nil =>
      rw [update]
      cases q with
      | nil => simp
      | cons j q => simp [follow?, hinside node (follow?_nil node)]
  | cons i steps ih =>
      cases node with
      | leaf k x =>
          rw [update]
          cases q <;> simp
      | branch k cs =>
          rw [update]
          cases q with
          | nil => simp [hview k (cs.modify i _) cs]
          | cons j q =>
              rw [follow?_branch_cons, follow?_branch_cons, List.getElem?_modify]
              by_cases hij : i = j
              · subst hij
                cases hc : cs[i]? with
                | none => simp
                | some c =>
                    have hc' : ∀ n, c.follow? steps = some n → (change n).children = n.children := by
                      intro n hn
                      refine hinside n ?_
                      rw [follow?_branch_cons, hc]
                      exact hn
                    have hfollow := ih hc' q
                    simp only [Option.bind_some, if_true, List.cons.injEq, true_and]
                    exact hfollow
              · have hne : ¬ (j :: q = i :: steps) := by
                  rintro heq
                  exact hij (List.cons.inj heq).1.symm
                rw [if_neg hne]
                simp [hij]

end Node

namespace Forest

theorem map_get?_update {α : Type} (view : Node → α)
    (hview : ∀ k cs ds, view (.branch k cs) = view (.branch k ds)) {change : Node → Node}
    {forest : Forest} {path : Path}
    (hinside : ∀ n, forest.get? path = some n → (change n).children = n.children) (q : Path) :
    ((forest.update path change).get? q).map view
      = if q = path then (forest.get? q).map fun n => view (change n)
        else (forest.get? q).map view := by
  obtain ⟨r, steps⟩ := path
  obtain ⟨r', steps'⟩ := q
  show (((forest.roots.modify r _)[r']?).bind _).map view = _
  rw [List.getElem?_modify]
  by_cases hr : r = r'
  · subst hr
    cases hroot : forest.roots[r]? with
    | none => simp [get?, hroot]
    | some root =>
        have hroot' : ∀ n, root.follow? steps = some n → (change n).children = n.children := by
          intro n hn
          refine hinside n ?_
          rw [get?, hroot]
          exact hn
        have hfollow := Node.map_follow?_update view hview hroot' steps'
        simp only [get?, hroot, Option.bind_some, if_true, Path.mk.injEq, true_and]
        exact hfollow
  · have hne : ¬ ((⟨r', steps'⟩ : Path) = ⟨r, steps⟩) := by
      intro heq
      exact hr (congrArg Path.root heq).symm
    rw [if_neg hne, get?]
    simp [hr]

variable {forest : Forest} {h h' : Header} {payload payload' : Bytes} {path : Path}
  (change : Node → Node)

theorem get?_update {α : Type} (view : Node → Option α)
    (hview : ∀ k cs i c f, cs[i]? = some c → (f c).tableLength = c.tableLength →
      view (.branch k (cs.modify i f)) = view (.branch k cs))
    (hchange : change (.leaf h payload) = .leaf h' payload')
    (hleaf : forest.get? path = some (.leaf h payload)) (q : Path) :
    ((forest.update path change).get? q).bind view
      = if q = path then view (.leaf h' payload') else (forest.get? q).bind view := by
  obtain ⟨r, steps⟩ := path
  obtain ⟨r', steps'⟩ := q
  rw [get?, Option.bind_eq_some_iff] at hleaf
  obtain ⟨root, hroot, hleaf⟩ := hleaf
  have hroot : forest.roots[r]? = some root := hroot
  show (((forest.roots.modify r _)[r']?).bind _).bind view = _
  rw [List.getElem?_modify]
  by_cases hr : r = r'
  · subst hr
    have hfollow := Node.follow?_update view hview hchange hleaf steps'
    simp only [hroot, get?, Option.bind_some, if_true, Path.mk.injEq, true_and]
    exact hfollow
  · have hne : ¬ ((⟨r', steps'⟩ : Path) = ⟨r, steps⟩) := by
      intro heq
      exact hr (congrArg Path.root heq).symm
    rw [if_neg hne, get?]
    simp [hr]

/-- **A changed leaf is seen at its own path and nowhere else.** -/
theorem leaf?_update (hchange : change (.leaf h payload) = .leaf h' payload')
    (hleaf : forest.leaf? path = some (h, payload)) (q : Path) :
    (forest.update path change).leaf? q = if q = path then some (h', payload') else forest.leaf? q :=
  get?_update change Node.leaf? (fun _ _ _ _ _ _ _ => rfl) hchange (leaf?_eq_some.mp hleaf) q

/-- Branches are as they were. -/
theorem branch?_update (hchange : change (.leaf h payload) = .leaf h' payload')
    (hleaf : forest.leaf? path = some (h, payload)) (q : Path) :
    (forest.update path change).branch? q = forest.branch? q := by
  have hview : ∀ k cs i c f, cs[i]? = some c → (f c).tableLength = c.tableLength →
      (Node.branch k (cs.modify i f)).branch? = (Node.branch k cs).branch? := by
    intro k cs i c f hc hf
    rw [Node.branch?, Node.branch?, Node.tableLengths_modify hc hf]
  have hget := leaf?_eq_some.mp hleaf
  rw [branch?, get?_update change Node.branch? hview hchange hget]
  by_cases hq : q = path
  · rw [if_pos hq, hq, branch?, hget]
    rfl
  · rw [if_neg hq, branch?]

end Forest

end ChunkArchive
