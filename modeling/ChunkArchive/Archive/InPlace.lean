import ChunkArchive.Archive.Edit
import ChunkArchive.Steps

/-!
# Editing in place

The program that edits an archive where it is, step by step. It plans the edit first: it looks at
the archive, and builds the new block in a buffer into which it copies ranges of bytes. Then it
changes the forest, the block, its descriptor and the table one after the other. It stops where it
refuses a call, and where a range or an index is not there.
-/

set_option autoImplicit false

namespace ChunkArchive

/-! ## Writing a table -/

def Header.write (out : Bytes) (h : Header) : Except Stop Bytes := do
  let out ← out.append (Bytes.ofWord16 h.typeId)
  let out ← out.append (Bytes.ofWord16 h.flags)
  let out ← out.append (Bytes.ofWord32 h.offset)
  out.append (Bytes.ofWord32 h.size)

namespace Node

mutual

/-- Writes the headers of a chunk and of all chunks inside it, with the sizes that the bodies
have. -/
def write (out : Bytes) : Node → Except Stop Bytes
  | .leaf h payload => { h with size := UInt32.ofNat payload.length }.write out
  | .branch h cs => do
    let out ← { h with size := UInt32.ofNat (tableLengths cs) }.write out
    writeAll out cs

def writeAll (out : Bytes) : List Node → Except Stop Bytes
  | [] => .ok out
  | n :: ns => do
    let out ← write out n
    writeAll out ns

end

end Node

/-! ## Planning -/

namespace Forest

/-- Copies the payload of a leaf that moves to its new place. -/
def copyMoved (forest : Forest) (buffer : Bytes) (m : Move) : Except Stop Bytes :=
  match (forest.get? m.path).bind Node.payload? with
  | some payload => buffer.copyInto m.offset (m.offset + payload.length) payload
  | none => .ok buffer

/-- Builds the block anew for a payload of the target at `path`, in a buffer of the length that it
will have. -/
def rebuild (forest : Forest) (path : Path) (old payload : Bytes) (moves : List Move) :
    Except Stop Bytes :=
  match forest.get? path with
  | none => .ok old
  | some target => do
    let h := target.header
    let start := min h.offset.toNat old.length
    let newStop := h.offset.toNat + payload.length
    let movedStops := moves.filterMap fun m =>
      (forest.get? m.path).map fun node => m.offset + node.header.size.toNat
    let tail ← old.cut (min h.stop old.length) old.length
    let buffer := Bytes.zeros (max (newStop + tail.length) (movedStops.foldl max 0))
    let head ← old.cut 0 start
    let buffer ← buffer.copyInto 0 start head
    let buffer ← buffer.copyInto newStop (newStop + tail.length) tail
    let buffer ← buffer.copyInto h.offset.toNat newStop payload
    moves.foldlM forest.copyMoved buffer

end Forest

/-- What there is to change once an edit has been planned. -/
structure Edit where
  path : Path
  payload : Bytes
  moves : List Move
  /-- The block that is built anew, and its bytes. -/
  index : Nat
  bytes : Bytes
  deriving DecidableEq, Repr

namespace Archive

/-- Plans an edit, or refuses it. Nothing is changed. -/
def planEdit (a : Archive) (path : Path) (payload : Bytes) : Except Stop Edit := do
  let target ← (a.forest.resolve path).mapError .refused
  let h := target.header
  if h.hasChildren || target.payload?.isNone then .error (.refused (.notALeaf path.toText))
  let index := 1 + h.blockIndex
  if a.faults.any (·.1 = index) then .error (.refused (.damagedBlock index))
  match a.blocks[index]? with
  | none => .error (.refused (.format (.chunkInMissingBlock path.toText index)))
  | some block =>
    if 0x100000000 ≤ payload.length then
      .error (.refused (.format (.payloadTooLarge payload.length)))
    let moves ← (a.forest.moves path h payload.length).mapError .refused
    let bytes ← a.forest.rebuild path block.bytes payload moves
    return { path, payload, moves, index, bytes }

/-! ## Changing the archive -/

/-- A program that changes an archive. It may stop at any point, with the changes made so far. -/
abbrev Program := EStateM Stop Archive

/-- Changes the chunk at a path, if there is one. -/
def changeNode (path : Path) (change : Node → Node) : Program Unit :=
  modify fun a => { a with forest := a.forest.update path change }

/-- Changes the length that a block has in the dictionary, if there is such a block. -/
def setLength (index length : Nat) : Program Unit :=
  modify fun a => { a with blocks := a.blocks.modify index fun b =>
    { b with descriptor := { b.descriptor with unpackedSize := UInt32.ofNat length } } }

/-- Puts bytes into a block that has to be there. -/
def putBlock (index : Nat) (bytes : Bytes) : Program Unit := do
  let a ← get
  if index < a.blocks.length then
    set { a with blocks := a.blocks.modify index fun b => { b with bytes } }
  else throw .outOfRange

/-- Puts bytes into the first block, if there is one. -/
def putFirst (bytes : Bytes) : Program Unit :=
  modify fun a => { a with blocks := a.blocks.modify 0 fun b => { b with bytes } }

/-- Writes the table of the forest into the first block. -/
def refreshTable : Program Unit := do
  let a ← get
  let table ← MonadExcept.ofExcept (Node.writeAll [] a.forest.roots)
  setLength 0 table.length
  putFirst table

/-- Carries out an edit that has been planned. -/
def commit (e : Edit) : Program Unit := do
  e.moves.forM fun m => changeNode m.path fun node =>
    node.withHeader { node.header with offset := UInt32.ofNat m.offset }
  changeNode e.path fun node =>
    .leaf { node.header with size := UInt32.ofNat e.payload.length } e.payload
  putBlock e.index e.bytes
  setLength e.index e.bytes.length
  refreshTable

/-- Replaces the payload of the leaf at `path`. -/
def setPayloadInPlace (path : Path) (payload : Bytes) : Program Unit := do
  let e ← MonadExcept.ofExcept ((← get).planEdit path payload)
  commit e

end Archive

/-! ## Runs -/

/-- What can be asked of an archive in memory. -/
inductive Change where
  | payload (path : Path) (bytes : Bytes)
  | storage (compressed : Bool)
  deriving DecidableEq, Repr

namespace Change

def program : Change → Archive.Program Unit
  | .payload path bytes => Archive.setPayloadInPlace path bytes
  | .storage compressed => modify fun a => a.setCompressed compressed

/-- The archive that a change leaves behind, whether it has been carried out or has stopped. -/
def leave (a : Archive) (c : Change) : Archive :=
  match c.program.run a with
  | .ok _ b => b
  | .error _ b => b

/-- The same in one step: nothing happens to the archive when the change is refused. -/
def apply (a : Archive) : Change → Except Error Archive
  | .payload path bytes => a.setPayload path bytes
  | .storage compressed => .ok (a.setCompressed compressed)

end Change

end ChunkArchive
