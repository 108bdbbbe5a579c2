import ChunkArchive.Archive.Basic
import ChunkArchive.Dictionary.Format

/-!
# Archives in files

An archive is stored in two files: the dictionary, and the data file with the blocks one after the
other. Of a compressed archive the blocks that hold chunks are packed. A block that can not be
unpacked need not keep an archive from being loaded, and is saved as it was stored.
-/

set_option autoImplicit false

namespace ChunkArchive

/-- The contents of the two files of an archive. -/
structure FilePair where
  dictionary : Bytes
  data : Bytes
  deriving DecidableEq, Repr

/-! ## Loading -/

def Block.load (codec : Codec) (compressed : Bool) (data : Bytes) (d : Descriptor) : Block :=
  let stored := (data.drop d.offset.toNat).take (d.storedSize compressed).toNat
  if d.isPacked compressed then
    match codec.unpackBlock stored d.unpackedSize.toNat with
    | .ok bytes => ⟨d, bytes, none⟩
    | .error damage => ⟨d, stored, some damage⟩
  else ⟨d, stored, none⟩

namespace Archive

/-- The forest whose table is the first of the blocks and whose payloads lie in the others. -/
def readForest : List Bytes → Except Error Forest
  | [] => .ok ⟨[]⟩
  | table :: dataBlocks => Forest.parse table dataBlocks

/-- Loads an archive. If `strict`, a block that can not be unpacked is an error. -/
def load (codec : Codec) (strict : Bool) (pair : FilePair) : Except Error Archive := do
  let dictionary ← Dictionary.load pair.dictionary
  dictionary.checkBounds pair.data.length
  let blocks := dictionary.blocks.map (Block.load codec dictionary.isCompressed pair.data)
  let archive : Archive := { frame := dictionary.toFrame, blocks, forest := ⟨[]⟩ }
  -- damage is reported before the table is read
  match strict, archive.faults with
  | true, (index, damage) :: _ => .error (.corruptBlock index damage)
  | _, _ =>
    let forest ← readForest (blocks.map Block.bytes)
    return { archive with forest }

end Archive

/-! ## Saving -/

/-- The descriptor of the block but for its offset, and its bytes in the data file. -/
def Block.store (codec : Codec) (level : Nat) (compressed : Bool) (b : Block) :
    Descriptor × Bytes :=
  let d := b.descriptor
  let size := UInt32.ofNat b.bytes.length
  if b.damage.isSome then
    (if compressed then { d with packedSize := size } else { d with unpackedSize := size }, b.bytes)
  else if d.isPacked compressed then
    let packed := codec.pack level b.bytes
    ({ d with unpackedSize := size, packedSize := UInt32.ofNat packed.length }, packed)
  else if compressed then ({ d with unpackedSize := size, packedSize := size }, b.bytes)
  else ({ d with unpackedSize := size }, b.bytes)

/-- Gives the blocks from number `index` on their places in the data file, from `offset` on. -/
def assignOffsets : (index offset : Nat) → List (Descriptor × Bytes) →
    Except Error (List Descriptor)
  | _, _, [] => .ok []
  | index, offset, (d, bytes) :: rest =>
    if offset < 0x100000000 then do
      let others ← assignOffsets (index + 1) (offset + bytes.length) rest
      return { d with offset := UInt32.ofNat offset } :: others
    else .error (.format (.dataTooLarge index))

namespace Archive

/-- Saves an archive. Levels above the highest are taken for it. -/
def save (codec : Codec) (level : Nat) (a : Archive) : Except Error FilePair := do
  let stored := a.blocks.map (Block.store codec (min level Codec.maxLevel) a.isCompressed)
  let descriptors ← assignOffsets 0 0 stored
  let dictionary ← Dictionary.save { a.frame with blocks := descriptors }
  return { dictionary, data := stored.flatMap Prod.snd }

end Archive

end ChunkArchive
