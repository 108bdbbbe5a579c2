import ChunkArchive.Proofs.Chunk.Grammar

/-!
# Changing all chunks of a forest

A forest in which every chunk gets another header, and every leaf another payload (`Forest.map`),
has the shape that it had before: the same paths lead to the chunks (`Forest.get?_map`). Its table
is the same as long as no header is changed but in its size and no payload in its length
(`Forest.table_map`), because the table does not take its sizes from the headers.
-/

set_option autoImplicit false

namespace ChunkArchive

namespace Node

section Map

variable (header : Node → Header) (payload : Header → Bytes → Bytes)

mutual

/-- The chunk with the headers and payloads that the functions give for it and for all chunks inside
it. -/
def map : Node → Node
  | .leaf h x => .leaf (header (.leaf h x)) (payload h x)
  | .branch h cs => .branch (header (.branch h cs)) (mapAll cs)

def mapAll : List Node → List Node
  | [] => []
  | n :: ns => map n :: mapAll ns

end

@[simp] theorem header_map (node : Node) : (node.map header payload).header = header node := by
  cases node <;> rfl

theorem mapAll_eq_map (cs : List Node) : mapAll header payload cs = cs.map (map header payload) := by
  induction cs with
  | nil => rfl
  | cons c cs ih => rw [mapAll, ih, List.map_cons]

theorem tableLengths_map {cs : List Node}
    (h : ∀ c ∈ cs, (c.map header payload).tableLength = c.tableLength) :
    tableLengths (mapAll header payload cs) = tableLengths cs := by
  induction cs with
  | nil => rfl
  | cons c cs ih =>
      rw [mapAll, tableLengths, tableLengths, h c (by simp), ih fun d hd => h d (by simp [hd])]

theorem tableBytesOf_map {cs : List Node}
    (h : ∀ c ∈ cs, (c.map header payload).tableBytes = c.tableBytes) :
    tableBytesOf (mapAll header payload cs) = tableBytesOf cs := by
  induction cs with
  | nil => rfl
  | cons c cs ih =>
      rw [mapAll, tableBytesOf, tableBytesOf, h c (by simp), ih fun d hd => h d (by simp [hd])]

@[simp] theorem tableLength_map (node : Node) :
    (node.map header payload).tableLength = node.tableLength := by
  induction node with
  | leaf h x => rfl
  | branch h cs ih => rw [map, tableLength, tableLength, tableLengths_map header payload ih]

@[simp] theorem tableLengths_mapAll (cs : List Node) :
    tableLengths (mapAll header payload cs) = tableLengths cs :=
  tableLengths_map header payload fun c _ => c.tableLength_map header payload

theorem follow?_map (node : Node) (steps : List Nat) :
    (node.map header payload).follow? steps = (node.follow? steps).map (map header payload) := by
  induction steps generalizing node with
  | nil => rw [follow?_nil, follow?_nil, Option.map_some]
  | cons i steps ih =>
      cases node with
      | leaf h x => rfl
      | branch h cs =>
          rw [map, follow?_branch_cons, follow?_branch_cons, mapAll_eq_map, List.getElem?_map]
          cases cs[i]? with
          | none => rfl
          | some c => exact ih c

variable {header : Node → Header} {payload : Header → Bytes → Bytes}

/-- The written table does not depend on the sizes in the headers, and of the payloads only on their
lengths. -/
theorem tableBytes_map (hheader : ∀ n : Node, ∃ size, header n = { n.header with size })
    (hpayload : ∀ h x, (payload h x).length = x.length) (node : Node) :
    (node.map header payload).tableBytes = node.tableBytes := by
  induction node with
  | leaf h x =>
      obtain ⟨size, hsize⟩ := hheader (.leaf h x)
      rw [map, tableBytes, tableBytes, hsize, hpayload]
      rfl
  | branch h cs ih =>
      obtain ⟨size, hsize⟩ := hheader (.branch h cs)
      rw [map, tableBytes, tableBytes, hsize, tableLengths_mapAll,
        tableBytesOf_map header payload ih]
      rfl

/-- Only the payloads that the leaves have matter. -/
theorem map_congr {payload' : Header → Bytes → Bytes} {node : Node}
    (h : ∀ steps k x, node.follow? steps = some (.leaf k x) → payload k x = payload' k x) :
    node.map header payload = node.map header payload' := by
  induction node with
  | leaf k x => rw [map, map, h [] k x (follow?_nil _)]
  | branch k cs ih =>
      rw [map, map, mapAll_eq_map, mapAll_eq_map]
      refine congrArg (Node.branch _) (List.map_congr_left fun c hc => ih c hc ?_)
      obtain ⟨i, hi⟩ := List.mem_iff_getElem?.mp hc
      intro steps l x hleaf
      refine h (i :: steps) l x ?_
      rw [follow?_branch_cons, hi, Option.bind_some, hleaf]

theorem flagFits_map (hheader : ∀ n : Node, ∃ size, header n = { n.header with size })
    {node : Node} : (node.map header payload).FlagFits ↔ node.FlagFits := by
  obtain ⟨size, hsize⟩ := hheader node
  cases node <;> rw [map, FlagFits, hsize] <;> rfl

end Map

end Node

namespace Forest

variable {header : Node → Header} {payload : Header → Bytes → Bytes}

/-- The forest with other headers, and other payloads in the leaves. -/
def map (header : Node → Header) (payload : Header → Bytes → Bytes) (forest : Forest) : Forest :=
  ⟨Node.mapAll header payload forest.roots⟩

theorem table_map (hheader : ∀ n : Node, ∃ size, header n = { n.header with size })
    (hpayload : ∀ h x, (payload h x).length = x.length) (forest : Forest) :
    (forest.map header payload).table = forest.table :=
  Node.tableBytesOf_map header payload fun c _ => c.tableBytes_map hheader hpayload

theorem get?_map (forest : Forest) (path : Path) :
    (forest.map header payload).get? path
      = (forest.get? path).map (Node.map header payload) := by
  rw [get?, get?, map, Node.mapAll_eq_map, List.getElem?_map]
  cases forest.roots[path.root]? with
  | none => rfl
  | some root => exact root.follow?_map header payload path.steps

/-- Only the payloads that the leaves have matter. -/
theorem map_congr {payload' : Header → Bytes → Bytes} {forest : Forest}
    (h : ∀ path k x, forest.get? path = some (.leaf k x) → payload k x = payload' k x) :
    forest.map header payload = forest.map header payload' := by
  rw [map, map, Node.mapAll_eq_map, Node.mapAll_eq_map]
  refine congrArg Forest.mk (List.map_congr_left fun root hroot => Node.map_congr ?_)
  obtain ⟨i, hi⟩ := List.mem_iff_getElem?.mp hroot
  intro steps k x hleaf
  refine h ⟨i, steps⟩ k x ?_
  rw [get?, hi, Option.bind_some, hleaf]

/-- The walk meets the changed chunks at the paths of the old ones. -/
theorem mem_walk_map {forest : Forest} {path : Path} {node : Node} :
    (path, node) ∈ (forest.map header payload).walk ↔
      ∃ n, (path, n) ∈ forest.walk ∧ n.map header payload = node := by
  rw [mem_walk, get?_map, Option.map_eq_some_iff]
  simp only [mem_walk]

end Forest

end ChunkArchive
