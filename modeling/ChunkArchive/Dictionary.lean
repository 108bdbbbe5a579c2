import ChunkArchive.Bytes

/-!
# Dictionaries

A dictionary lists the blocks of a data file: where each is stored, how long it is stored and
unpacked, and what it is used for. It also holds some regions that are kept as they are.
-/

set_option autoImplicit false

namespace ChunkArchive

/-- One contiguous range of the data file. The reserved bytes are kept as read. -/
structure Descriptor where
  offset : UInt32
  unpackedSize : UInt32
  packedSize : UInt32
  usage : UInt8 := 0
  reserved : UInt8 × UInt8 × UInt8 := (0, 0, 0)
  deriving DecidableEq, Repr, Inhabited

namespace Descriptor

/-- Blocks of usage 0 hold chunks; they are the ones that get packed. -/
def holdsChunks (d : Descriptor) : Bool := d.usage = 0

def isPacked (d : Descriptor) (compressed : Bool) : Bool := compressed && d.holdsChunks

/-- The length of the block in the data file. -/
def storedSize (d : Descriptor) (compressed : Bool) : UInt32 :=
  if compressed then d.packedSize else d.unpackedSize

def stop (d : Descriptor) (compressed : Bool) : Nat :=
  d.offset.toNat + (d.storedSize compressed).toNat

end Descriptor

/-- What a dictionary says besides its list of blocks. -/
structure Frame where
  version : UInt16 := 1
  isCompressed : Bool
  tableReferences : Bytes := []
  names : List String := []
  trailer : Bytes := []
  reserved : UInt8 × UInt8 := (0, 0)
  deriving DecidableEq, Repr

structure Dictionary extends Frame where
  blocks : List Descriptor := []
  deriving DecidableEq, Repr

namespace Dictionary

/-- The size of the largest block when unpacked. -/
def largestBlock (d : Dictionary) : UInt32 :=
  (d.blocks.map Descriptor.unpackedSize).foldl max 0

/-- The bytes that one table reference takes. -/
def tableReferenceSize : Nat := 8

def tableReferenceCount (d : Dictionary) : Nat := d.tableReferences.length / tableReferenceSize

end Dictionary

end ChunkArchive
