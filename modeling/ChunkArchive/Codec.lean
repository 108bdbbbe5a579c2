import ChunkArchive.Error
import ChunkArchive.Bytes

/-!
# Packing of blocks

What the rest of the library has to know about the compression of blocks: unpacking gives back what
was packed, and packed bytes do not begin like a zlib frame. Blocks come with such a frame now and
then; its two bytes are skipped before a block is unpacked.
-/

set_option autoImplicit false

namespace ChunkArchive

/-- Skips one zlib header of the default or the best compression. -/
def skipFrame (bytes : Bytes) : Bytes :=
  match bytes with
  | 0x78 :: 0x9C :: rest => rest
  | 0x78 :: 0xDA :: rest => rest
  | _ => bytes

/-- The outcome of unpacking a stream to its end. Bytes behind the end are passed over. -/
inductive Unpacked where
  | complete (bytes : Bytes)
  /-- The stream ends too early, `produced` bytes having come out. -/
  | incomplete (produced : Nat)
  | corrupt
  deriving DecidableEq, Repr

structure Codec where
  pack (level : Nat) (bytes : Bytes) : Bytes
  unpack (packed : Bytes) : Unpacked
  unpack_pack (level : Nat) (bytes : Bytes) : unpack (pack level bytes) = .complete bytes
  skipFrame_pack (level : Nat) (bytes : Bytes) : skipFrame (pack level bytes) = pack level bytes

namespace Codec

/-- Unpacks a block that is known to have `size` bytes. Of a longer one no more than the first
surplus byte is counted. -/
def unpackBlock (codec : Codec) (packed : Bytes) (size : Nat) : Except Damage Bytes :=
  match codec.unpack (skipFrame packed) with
  | .corrupt => .error .corrupt
  | .incomplete produced =>
    if size < produced then .error (.wrongLength (size + 1) size) else .error .incomplete
  | .complete bytes =>
    if bytes.length = size then .ok bytes
    else .error (.wrongLength (min bytes.length (size + 1)) size)

/-! ## Levels -/

def maxLevel : Nat := 9

def defaultLevel : Nat := 6

end Codec

end ChunkArchive
