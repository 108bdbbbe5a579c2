import ChunkArchive.Archive.Basic

/-!
# Replacing payloads

The leaves of a data block lie one after the other. When one of them gets a payload of another
length, the leaves stored after it move along by the difference, each to a multiple of its own
alignment. The block, the table and the descriptors are brought up to date with the forest.
-/

set_option autoImplicit false

namespace ChunkArchive

/-- A leaf that has to move, and where it goes. -/
structure Move where
  path : Path
  node : Node
  offset : Nat
  deriving DecidableEq, Repr

namespace Forest

/-- Whether the leaf at `path` is stored after the target. An empty target shares its offset with
the leaf stored after it; of the leaves at its offset those follow it that come later in the walk. -/
def follows (targetPath : Path) (target : Header) (path : Path) (node : Node) : Bool :=
  let h := node.header
  !h.hasChildren && h.blockIndex = target.blockIndex
    && (target.offset < h.offset
      || (target.size = 0 && h.offset = target.offset && targetPath < path))

/-- The order in which the leaves of a block are packed: by offset, then by path. -/
def packedBefore (a b : Path × Node) : Bool :=
  a.2.header.offset < b.2.header.offset
    || (a.2.header.offset = b.2.header.offset && !(b.1 < a.1))

/-- The leaves stored after the target, in the order in which they are packed. -/
def following (forest : Forest) (targetPath : Path) (target : Header) : List (Path × Node) :=
  (forest.walk.filter fun (path, node) => follows targetPath target path node).mergeSort packedBefore

/-- Places leaves one after the other. Each goes to the first multiple of its alignment that is
neither before its old place moved by `delta` nor before the end of what has been placed. -/
def placeFrom (delta : Int) : (placedEnd : Nat) → List (Path × Node) → Except Error (List Move)
  | _, [] => .ok []
  | placedEnd, (path, node) :: rest =>
    let h := node.header
    let wanted := alignUp (Int.ofNat h.offset.toNat + delta).toNat h.alignment
    let offset := if wanted < placedEnd then alignUp placedEnd h.alignment else wanted
    let stop := offset + h.size.toNat
    if stop < 0x100000000 then do
      let others ← placeFrom delta (max placedEnd stop) rest
      return ⟨path, node, offset⟩ :: others
    else .error (.format (.chunkTooFar path.toText))

/-- The moves that a payload of length `size` for the target brings about. -/
def moves (forest : Forest) (targetPath : Path) (target : Header) (size : Nat) :
    Except Error (List Move) :=
  let delta := Int.ofNat size - Int.ofNat target.size.toNat
  if delta = 0 then .ok []
  else placeFrom delta (target.offset.toNat + size) (forest.following targetPath target)

/-- Carries out moves, then puts the payload into the target. -/
def edited (forest : Forest) (targetPath : Path) (payload : Bytes) (moves : List Move) : Forest :=
  let moved := moves.foldl
    (fun forest move => forest.update move.path fun node =>
      node.withHeader { node.header with offset := UInt32.ofNat move.offset })
    forest
  moved.update targetPath fun node =>
    .leaf { node.header with size := UInt32.ofNat payload.length } payload

end Forest

namespace Move

def stop (m : Move) : Nat := m.offset + m.node.header.size.toNat

/-- Writes the payload of the leaf at its new place. -/
def write (block : Bytes) (m : Move) : Bytes :=
  match m.node.payload? with
  | some payload => Bytes.overwrite block m.offset payload
  | none => block

end Move

/-- The bytes of a block after an edit: what lies before the target, the payload, what lay behind
the target, and zeros up to the end of the last leaf; then the moved leaves at their places. -/
def rebuildBlock (old : Bytes) (target : Header) (payload : Bytes) (moves : List Move) : Bytes :=
  let body := Bytes.padTo target.offset.toNat old ++ payload ++ old.drop target.stop
  -- the old bytes of the moved leaves are still in the tail; the leaves are written over them
  let stop := (moves.map Move.stop).foldl max 0
  moves.foldl Move.write (body ++ Bytes.zeros (stop - body.length))

namespace Block

def withBytes (bytes : Bytes) (b : Block) : Block :=
  { b with bytes, descriptor := { b.descriptor with unpackedSize := UInt32.ofNat bytes.length } }

end Block

namespace Archive

/-- Replaces the payload of the leaf at `path`. -/
def setPayload (a : Archive) (path : Path) (payload : Bytes) : Except Error Archive := do
  let target ← a.forest.resolve path
  let h := target.header
  if h.hasChildren || target.payload?.isNone then .error (.notALeaf path.toText)
  let index := 1 + h.blockIndex
  match a.blocks[index]? with
  | none => .error (.format (.chunkInMissingBlock path.toText index))
  | some block =>
    if block.damage.isSome then .error (.damagedBlock index)
    if 0x100000000 ≤ payload.length then .error (.format (.payloadTooLarge payload.length))
    let moves ← a.forest.moves path h payload.length
    let forest := a.forest.edited path payload moves
    let rebuilt := rebuildBlock block.bytes h payload moves
    let blocks := (a.blocks.modify index (Block.withBytes rebuilt)).modify 0
      (Block.withBytes forest.table)
    return { a with blocks, forest }

end Archive

end ChunkArchive
