import ChunkArchive.Chunk.Node
import ChunkArchive.Chunk.Path

/-!
# Forests of chunks

The roots of a chunk table in order. A chunk is found by its path, and the walk through a forest
meets every chunk before those inside it.
-/

set_option autoImplicit false

namespace ChunkArchive

structure Forest where
  roots : List Node
  deriving DecidableEq, Inhabited, Repr

/-! ## Following a path -/

namespace Node

def follow? : Node → List Nat → Option Node
  | node, [] => some node
  | node, i :: steps => node.children[i]?.bind fun c => c.follow? steps

/-- Puts `change` of the chunk in its place at the end of the steps. Where they lead to no chunk,
nothing is changed. -/
def update (change : Node → Node) : Node → List Nat → Node
  | node, [] => change node
  | .leaf h payload, _ :: _ => .leaf h payload
  | .branch h cs, i :: steps => .branch h (cs.modify i fun c => c.update change steps)

end Node

namespace Forest

def get? (forest : Forest) (path : Path) : Option Node :=
  forest.roots[path.root]?.bind fun root => root.follow? path.steps

def resolve (forest : Forest) (path : Path) : Except Error Node :=
  match forest.get? path with
  | some node => .ok node
  | none => .error (.chunkNotFound path.toText)

def update (forest : Forest) (path : Path) (change : Node → Node) : Forest :=
  ⟨forest.roots.modify path.root fun root => root.update change path.steps⟩

end Forest

/-! ## The walk -/

namespace Node

mutual

def walk (path : Path) : Node → List (Path × Node)
  | .leaf h payload => [(path, .leaf h payload)]
  | .branch h cs => (path, .branch h cs) :: walkFrom path 0 cs

/-- Walks through the chunks inside the one at `path`, the first of which has position `i`. -/
def walkFrom (path : Path) (i : Nat) : List Node → List (Path × Node)
  | [] => []
  | n :: ns => walk (path.child i) n ++ walkFrom path (i + 1) ns

end

end Node

namespace Forest

/-- Every chunk with its path, each before those inside it. -/
def walk (forest : Forest) : List (Path × Node) :=
  forest.roots.zipIdx.flatMap fun (root, i) => root.walk (.ofRoot i)

def nodeCount (forest : Forest) : Nat := forest.walk.length

/-- The path of the first chunk in the walk with the given property. -/
def findPath? (forest : Forest) (holds : Node → Bool) : Option Path :=
  (forest.walk.find? fun (_, node) => holds node).map Prod.fst

end Forest

/-! ## Places

To change a chunk where it is, its path is followed down to it. At every step one has the chunk that
has been reached and the place where it stands, into which another one can be put. -/

namespace Node

/-- A chunk of a forest with the place where it stands. -/
structure Place where
  node : Node
  /-- The forest with another chunk in this place. -/
  put : Node → Forest

/-- The place of the chunk at a position inside this one. A leaf has no places inside. -/
def Place.inside? (place : Place) (i : Nat) : Option Place :=
  match place.node with
  | .leaf _ _ => none
  | .branch h cs => cs[i]?.map fun c =>
      { node := c, put := fun n => place.put (.branch h (cs.set i n)) }

end Node

namespace Forest

/-- The place of the root at a position. -/
def rootPlace? (forest : Forest) (i : Nat) : Option Node.Place :=
  forest.roots[i]?.map fun root => { node := root, put := fun n => ⟨forest.roots.set i n⟩ }

/-- Follows a path step by step, to the place that it leads to. -/
def place? (forest : Forest) (path : Path) : Option Node.Place := do
  path.steps.foldlM Node.Place.inside? (← forest.rootPlace? path.root)

end Forest

end ChunkArchive
