import ChunkArchive.Codec
import ChunkArchive.Dictionary
import ChunkArchive.Chunk.Table

/-!
# Archives

An archive in memory: the blocks of its data file, unpacked, each with its descriptor, and the
forest that the first block is the table of. A block that could not be unpacked is kept as it was
stored, together with the reason.
-/

set_option autoImplicit false

namespace ChunkArchive

structure Block where
  descriptor : Descriptor
  bytes : Bytes
  damage : Option Damage
  deriving DecidableEq, Repr, Inhabited

structure Archive where
  frame : Frame
  blocks : List Block
  forest : Forest
  deriving DecidableEq, Repr

namespace Archive

/-- The dictionary of the archive. The offsets of the blocks are assigned when it is saved. -/
def dictionary (a : Archive) : Dictionary :=
  { a.frame with blocks := a.blocks.map Block.descriptor }

def isCompressed (a : Archive) : Bool := a.frame.isCompressed

/-- The blocks that could not be unpacked. -/
def faults (a : Archive) : List (Nat × Damage) :=
  a.blocks.zipIdx.filterMap fun (b, index) => b.damage.map fun damage => (index, damage)

/-- An archive of the forest, the payloads lying at the offsets that the forest has them at. -/
def ofForest (forest : Forest) (compressed : Bool) : Archive where
  frame := { isCompressed := compressed }
  blocks := (forest.table :: forest.layOut 0).map fun bytes =>
    let size := UInt32.ofNat bytes.length
    { descriptor := { offset := 0, unpackedSize := size, packedSize := size }, bytes, damage := none }
  forest

/-- Chooses how the blocks are stored when the archive is saved. -/
def setCompressed (a : Archive) (compressed : Bool) : Archive :=
  { a with frame := { a.frame with isCompressed := compressed } }

end Archive

end ChunkArchive
