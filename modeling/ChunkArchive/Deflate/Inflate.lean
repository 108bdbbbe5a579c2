import ChunkArchive.Codec
import ChunkArchive.Deflate.Huffman

/-!
# Inflating

A deflated stream is a row of blocks. A block is stored as it is, or it is a row of symbols in a
fixed code or in a code of its own: bytes, and copies of bytes that came out before.
-/

set_option autoImplicit false

namespace ChunkArchive.Deflate

abbrev Output := Array UInt8

/-- What a part of the stream leads to: the reason to halt with the number of bytes that had come
out by then, or all that has come out and the stream behind the part. -/
abbrev Step := Except (Halt × Nat) (Output × BitStream)

/-! ## Lengths and distances -/

/-- The least value of each symbol and the number of further bits that are added to it. -/
def lengthTable : Array (Nat × Nat) := #[
  (3, 0), (4, 0), (5, 0), (6, 0), (7, 0), (8, 0), (9, 0), (10, 0), (11, 1), (13, 1), (15, 1),
  (17, 1), (19, 2), (23, 2), (27, 2), (31, 2), (35, 3), (43, 3), (51, 3), (59, 3), (67, 4),
  (83, 4), (99, 4), (115, 4), (131, 5), (163, 5), (195, 5), (227, 5), (258, 0)]

def distanceTable : Array (Nat × Nat) := #[
  (1, 0), (2, 0), (3, 0), (4, 0), (5, 1), (7, 1), (9, 2), (13, 2), (17, 3), (25, 3), (33, 4),
  (49, 4), (65, 5), (97, 5), (129, 6), (193, 6), (257, 7), (385, 7), (513, 8), (769, 8),
  (1025, 9), (1537, 9), (2049, 10), (3073, 10), (4097, 11), (6145, 11), (8193, 12), (12289, 12),
  (16385, 13), (24577, 13)]

def readAmount (table : Array (Nat × Nat)) (symbol : Nat) : BitReader Nat :=
  match table[symbol]? with
  | none => BitReader.corrupt
  | some (least, bits) => do return least + (← BitReader.number bits)

/-- The length and distance of a copy whose length symbol has been read. -/
def readCopy (distances : Code) (symbol : Nat) : BitReader (Nat × Nat) := do
  let length ← readAmount lengthTable (symbol - 257)
  let distance ← readAmount distanceTable (← distances.read)
  return (length, distance)

/-- Appends `length` bytes, each being the one that came out `distance` bytes before it. -/
def copy (distance : Nat) : (length : Nat) → Output → Output
  | 0, out => out
  | length + 1, out => copy distance length (out.push (out.getD (out.size - distance) 0))

/-! ## Blocks -/

/-- Reads symbols up to the end of the block. Every symbol takes a bit at least, so that the number
of bits left bounds their number. -/
def inflateSymbols (literals distances : Code) : (bound : Nat) → Output → BitStream → Step
  | 0, out, _ => .error (.exhausted, out.size)
  | bound + 1, out, s =>
    match literals.read s with
    | .error halt => .error (halt, out.size)
    | .ok (symbol, s) =>
      if symbol < 256 then
        inflateSymbols literals distances bound (out.push (UInt8.ofNat symbol)) s
      else if symbol = 256 then .ok (out, s)
      else
        match readCopy distances symbol s with
        | .error halt => .error (halt, out.size)
        | .ok ((length, distance), s) =>
          if out.size < distance then .error (.corrupt, out.size)
          else inflateSymbols literals distances bound (copy distance length out) s

/-- The bits left of the byte that has been begun are skipped. Then come the length, its
complement and the bytes. -/
def inflateStored (out : Output) (s : BitStream) : Step :=
  match s.rest with
  | l₀ :: l₁ :: c₀ :: c₁ :: rest =>
    let length := (Bytes.toWord16 l₀ l₁).toNat
    if length + (Bytes.toWord16 c₀ c₁).toNat ≠ 0xFFFF then .error (.corrupt, out.size)
    else if rest.length < length then .error (.exhausted, out.size + rest.length)
    else .ok (out ++ rest.take length, ⟨[], rest.drop length⟩)
  | _ => .error (.exhausted, out.size)

/-- The order in which the lengths of the words for lengths are stored. -/
def lengthOrder : List Nat := [16, 17, 18, 0, 8, 7, 9, 6, 10, 5, 11, 4, 12, 3, 13, 2, 14, 1, 15]

/-- Reads `missing` lengths behind those in `done`, the last of which comes first. A symbol stands
for a length, or for a run of the length before or of zeros. -/
def readLengths (code : Code) : (bound missing : Nat) → (done : List Nat) → BitReader (List Nat)
  | 0, _, done => pure done.reverse
  | bound + 1, missing, done =>
    if missing = 0 then pure done.reverse
    else do
      let symbol ← code.read
      let (count, length) ←
        if symbol < 16 then pure (1, symbol)
        else if symbol = 16 then
          match done with
          | last :: _ => do pure (3 + (← BitReader.number 2), last)
          | [] => BitReader.corrupt
        else if symbol = 17 then do pure (3 + (← BitReader.number 3), 0)
        else do pure (11 + (← BitReader.number 7), 0)
      if missing < count then BitReader.corrupt
      readLengths code bound (missing - count) (List.replicate count length ++ done)

/-- A code of literals or distances has to be complete, but it may also have no words, or one of a
single bit. -/
def readCode (lengths : List Nat) : BitReader Code :=
  if Code.isComplete lengths || Code.isSparse lengths then pure (.ofLengths lengths)
  else BitReader.corrupt

def readTimes (bits : Nat) : Nat → BitReader (List Nat)
  | 0 => pure []
  | n + 1 => do
    let first ← BitReader.number bits
    let others ← readTimes bits n
    return first :: others

/-- The two codes that stand at the front of a block with codes of its own. The code that their
lengths are stored in has to be complete. -/
def readCodes : BitReader (Code × Code) := do
  let literalCount := 257 + (← BitReader.number 5)
  let distanceCount := 1 + (← BitReader.number 5)
  let lengthCount := 4 + (← BitReader.number 4)
  if 286 < literalCount ∨ 30 < distanceCount then BitReader.corrupt
  let stored ← readTimes 3 lengthCount
  let lengthOf (symbol : Nat) := (((lengthOrder.zip stored).find? (·.1 = symbol)).map (·.2)).getD 0
  let lengthLengths := (List.range 19).map lengthOf
  if !Code.isComplete lengthLengths then BitReader.corrupt
  let total := literalCount + distanceCount
  let lengths ← readLengths (.ofLengths lengthLengths) total total []
  let literals ← readCode (lengths.take literalCount)
  let distances ← readCode (lengths.drop literalCount)
  return (literals, distances)

def inflateCoded (codes : BitReader (Code × Code)) (out : Output) (s : BitStream) : Step :=
  match codes s with
  | .error halt => .error (halt, out.size)
  | .ok ((literals, distances), s) => inflateSymbols literals distances (s.size + 1) out s

def inflateBlock (kind : Nat) (out : Output) (s : BitStream) : Step :=
  match kind with
  | 0 => inflateStored out s
  | 1 =>
    let fixed := do return (← readCode fixedLengths, ← readCode fixedDistanceLengths)
    inflateCoded fixed out s
  | 2 => inflateCoded readCodes out s
  | _ => .error (.corrupt, out.size)

/-- Reads blocks up to the final one. Every block takes three bits at least. -/
def inflateBlocks : (bound : Nat) → Output → BitStream → Except (Halt × Nat) Output
  | 0, out, _ => .error (.exhausted, out.size)
  | bound + 1, out, s =>
    match (do return (← BitReader.bit, ← BitReader.number 2) : BitReader (Bool × Nat)) s with
    | .error halt => .error (halt, out.size)
    | .ok ((isFinal, kind), s) =>
      match inflateBlock kind out s with
      | .error halt => .error halt
      | .ok (out, s) => if isFinal then .ok out else inflateBlocks bound out s

def inflate (bytes : Bytes) : Unpacked :=
  match inflateBlocks (8 * bytes.length + 1) #[] (.ofBytes bytes) with
  | .ok out => .complete out.toList
  | .error (.corrupt, _) => .corrupt
  | .error (.exhausted, produced) => .incomplete produced

end ChunkArchive.Deflate
