import ChunkArchive.Bytes

/-!
# Streams of bits

The bits of a byte string from the lowest bit of the first byte on. Numbers are stored with their
lowest bit first.
-/

set_option autoImplicit false

namespace ChunkArchive.Deflate

/-- Why no more can be read. -/
inductive Halt where
  | corrupt
  | exhausted
  deriving DecidableEq, Repr

/-- The bits left of the byte that has been begun, and the bytes behind it. -/
structure BitStream where
  begun : List Bool
  rest : Bytes
  deriving DecidableEq, Repr

def BitStream.ofBytes (bytes : Bytes) : BitStream := ⟨[], bytes⟩

/-- The number of bits left. -/
def BitStream.size (s : BitStream) : Nat := s.begun.length + 8 * s.rest.length

abbrev BitReader := StateT BitStream (Except Halt)

def bitsOfByte (b : UInt8) : List Bool := (List.range 8).map b.toNat.testBit

namespace BitReader

def corrupt {α : Type} : BitReader α := fun _ => .error .corrupt

def bit : BitReader Bool
  | ⟨b :: begun, rest⟩ => .ok (b, ⟨begun, rest⟩)
  | ⟨[], byte :: rest⟩ => .ok (byte.toNat.testBit 0, ⟨(bitsOfByte byte).drop 1, rest⟩)
  | ⟨[], []⟩ => .error .exhausted

/-- A number of `n` bits. -/
def number : Nat → BitReader Nat
  | 0 => pure 0
  | n + 1 => do
    let low ← bit
    let high ← number n
    return low.toNat + 2 * high

end BitReader

/-! ## Writing -/

/-- The `n` lowest bits of a number. -/
def numberBits (n value : Nat) : List Bool := (List.range n).map value.testBit

/-- The bits in bytes, the last one filled up with zeros. -/
def bytesOfBits (bits : List Bool) : Bytes :=
  let (done, byte, weight) := bits.foldl
    (fun (done, byte, weight) b =>
      let byte := if b then byte + weight else byte
      if weight = 128 then (UInt8.ofNat byte :: done, 0, 1) else (done, byte, 2 * weight))
    (([] : Bytes), 0, 1)
  (if weight = 1 then done else UInt8.ofNat byte :: done).reverse

end ChunkArchive.Deflate
