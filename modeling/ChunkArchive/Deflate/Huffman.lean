import ChunkArchive.Deflate.BitStream

/-!
# Canonical prefix codes

A code is given by the lengths of its words: words of one length are consecutive numbers in the
order of their symbols, and shorter words come before longer ones. Words are stored with their
highest bit first.
-/

set_option autoImplicit false

namespace ChunkArchive.Deflate

/-- How many words there are of length 1, 2, …, and the symbols in the order of their words. -/
structure Code where
  counts : List Nat
  symbols : Array Nat
  deriving Repr

namespace Code

def maxLength : Nat := 15

/-- The lengths of the words that there are. -/
def used (lengths : List Nat) : List Nat := lengths.filter (· ≠ 0)

/-- Whether the words fill the space of words, so that every row of bits begins with one. -/
def isComplete (lengths : List Nat) : Bool :=
  ((used lengths).map fun n => Nat.pow 2 (maxLength - n)).foldl (· + ·) 0 = Nat.pow 2 maxLength

/-- Whether there is no word but one of a single bit. -/
def isSparse (lengths : List Nat) : Bool := used lengths = [] || used lengths = [1]

/-- The code in which symbol `i` has a word of length `lengths[i]`, or none if that is zero. -/
def ofLengths (lengths : List Nat) : Code :=
  -- the space of a code without words is that of one bit
  let all := (List.range (lengths.foldl max 1)).map (· + 1)
  let symbolsOf (n : Nat) := (lengths.zipIdx.filter fun (length, _) => length = n).map Prod.snd
  ⟨all.map fun n => lengths.count n, (all.flatMap symbolsOf).toArray⟩

/-- Reads bit after bit until the number read is that of a word. Words of the present length begin
at `first`, their symbols at `index`. -/
def readFrom (symbols : Array Nat) : List Nat → (value first index : Nat) → BitReader Nat
  | [], _, _, _ => BitReader.corrupt
  | count :: counts, value, first, index => do
    let b ← BitReader.bit
    let value := value + b.toNat
    if value < first + count then
      match symbols[index + (value - first)]? with
      | some symbol => return symbol
      | none => BitReader.corrupt
    else readFrom symbols counts (2 * value) (2 * (first + count)) (index + count)

def read (code : Code) : BitReader Nat := readFrom code.symbols code.counts 0 0 0

end Code

/-! ## The fixed codes -/

def fixedLengths : List Nat :=
  List.replicate 144 8 ++ List.replicate 112 9 ++ List.replicate 24 7 ++ List.replicate 8 8

def fixedDistanceLengths : List Nat := List.replicate 32 5

/-- The word of a symbol in the fixed code of literals and lengths. -/
def fixedWord (symbol : Nat) : List Bool :=
  (if symbol < 144 then numberBits 8 (0x30 + symbol)
  else if symbol < 256 then numberBits 9 (0x190 + (symbol - 144))
  else if symbol < 280 then numberBits 7 (symbol - 256)
  else numberBits 8 (0xC0 + (symbol - 280))).reverse

end ChunkArchive.Deflate
