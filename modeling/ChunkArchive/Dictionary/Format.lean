import ChunkArchive.Dictionary
import ChunkArchive.Steps

/-!
# The format of a dictionary file

A header of 16 bytes with the counts, the block descriptors of 16 bytes each, the table references
of 8 bytes each, the names, each ended by a zero byte, and whatever follows. The size of the largest
block stands in the header but is computed anew whenever a dictionary is saved.
-/

set_option autoImplicit false

namespace ChunkArchive

/-! ## Loading -/

def Descriptor.read : Reader Descriptor := do
  let offset ← Reader.word32
  let unpackedSize ← Reader.word32
  let packedSize ← Reader.word32
  let reserved₀ ← Reader.byte
  let reserved₁ ← Reader.byte
  let usage ← Reader.byte
  let reserved₂ ← Reader.byte
  return { offset, unpackedSize, packedSize, usage, reserved := (reserved₀, reserved₁, reserved₂) }

namespace Dictionary

def readName : Reader String := do
  let bytes ← Reader.terminated
  match Utf8.decode bytes with
  | .ok name => return name
  | .error fault => Reader.fail (.format (.dictionaryName fault))

def read : Reader Dictionary := do
  let magic ← Reader.word32
  if magic ≠ dictionaryMagic then Reader.fail (.badMagic magic)
  let version ← Reader.word16
  let compressed ← Reader.byte
  let reserved₀ ← Reader.byte
  let _ ← Reader.word32
  let blockCount ← Reader.byte
  let tableReferenceCount ← Reader.byte
  let nameCount ← Reader.byte
  let reserved₁ ← Reader.byte
  let blocks ← Reader.times Descriptor.read blockCount.toNat
  let tableReferences ← Reader.take (tableReferenceCount.toNat * tableReferenceSize)
  let names ← Reader.times readName nameCount.toNat
  let trailer ← Reader.all
  return {
    version, isCompressed := compressed ≠ 0, tableReferences, names, trailer,
    reserved := (reserved₀, reserved₁), blocks }

def load (bytes : Bytes) : Except Error Dictionary := (read.run bytes).map Prod.fst

/-- Every block has to lie inside a data file of the given length. -/
def checkBounds (d : Dictionary) (dataLength : Nat) : Except Error Unit :=
  match (d.blocks.zipIdx).find? fun (b, _) => dataLength < b.stop d.isCompressed with
  | some (b, index) => .error (.blockOutOfRange index (b.stop d.isCompressed) dataLength)
  | none => .ok ()

/-! ## Saving -/

end Dictionary

def Descriptor.bytes (d : Descriptor) : Bytes :=
  Bytes.ofWord32 d.offset ++ Bytes.ofWord32 d.unpackedSize ++ Bytes.ofWord32 d.packedSize
    ++ [d.reserved.1, d.reserved.2.1, d.usage, d.reserved.2.2]

namespace Dictionary

/-- A count that one byte of the header can hold. -/
def count (n : Nat) : Except Error UInt8 :=
  if n < 256 then .ok (UInt8.ofNat n) else .error (.tooMany n)

def save (d : Dictionary) : Except Error Bytes := do
  let blockCount ← count d.blocks.length
  let tableReferenceCount ← count d.tableReferenceCount
  let nameCount ← count d.names.length
  if d.tableReferences.length % tableReferenceSize ≠ 0 then
    .error (.format (.tableReferences d.tableReferences.length))
  let header :=
    Bytes.ofWord32 dictionaryMagic ++ Bytes.ofWord16 d.version
      ++ [if d.isCompressed then 1 else 0, d.reserved.1] ++ Bytes.ofWord32 d.largestBlock
      ++ [blockCount, tableReferenceCount, nameCount, d.reserved.2]
  return header ++ d.blocks.flatMap Descriptor.bytes ++ d.tableReferences
    ++ d.names.flatMap (fun name => Utf8.encode name ++ [0]) ++ d.trailer

end Dictionary

end ChunkArchive
