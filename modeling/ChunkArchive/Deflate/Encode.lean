import Std.Data.HashMap
import ChunkArchive.Deflate.Inflate

/-!
# Deflating

Bytes can always be stored as they are. They can also be written with copies of earlier bytes in the
fixed code. The second form is kept only if it is shorter and reads back to the bytes; so nothing has
to be known about the search for copies, and deflating is undone by inflating in any case.
-/

set_option autoImplicit false

namespace ChunkArchive.Deflate

/-! ## Storing -/

/-- The most bytes that a stored block can hold. -/
def storedLimit : Nat := 0xFFFF

def storedBlock (isFinal : Bool) (bytes : Bytes) : Bytes :=
  (if isFinal then 1 else 0) :: Bytes.ofWord16 (UInt16.ofNat bytes.length)
    ++ Bytes.ofWord16 (UInt16.ofNat (0xFFFF - bytes.length)) ++ bytes

/-- A final block with `others` full blocks before it. -/
def storedBlocks : (others : Nat) → Bytes → Bytes
  | 0, bytes => storedBlock true bytes
  | others + 1, bytes =>
    storedBlock false (bytes.take storedLimit) ++ storedBlocks others (bytes.drop storedLimit)

def store (bytes : Bytes) : Bytes := storedBlocks ((bytes.length - 1) / storedLimit) bytes

/-! ## Copies -/

inductive Token where
  | literal (b : UInt8)
  | copy (length distance : Nat)
  deriving Repr

/-- The longest copy there is. -/
def maxCopy : Nat := 258

/-- How many bytes from `i` on are the same as those from `j` on, `j` being the earlier position. -/
def commonLength (input : Array UInt8) (j i : Nat) : (bound : Nat) → Nat
  | 0 => 0
  | bound + 1 =>
    match input[j]?, input[i]? with
    | some a, some b => if a = b then commonLength input (j + 1) (i + 1) bound + 1 else 0
    | _, _ => 0

/-- Three bytes as a number, where there are three. -/
def key? (input : Array UInt8) (i : Nat) : Option Nat := do
  let a ← input[i]?
  let b ← input[i + 1]?
  let c ← input[i + 2]?
  return a.toNat + 0x100 * b.toNat + 0x10000 * c.toNat

/-- Takes at every position the copy from the last place with the same three bytes. -/
def tokensFrom (input : Array UInt8) :
    (bound i : Nat) → Std.HashMap Nat Nat → Array Token → Array Token
  | 0, _, _, tokens => tokens
  | bound + 1, i, seen, tokens =>
    match input[i]? with
    | none => tokens
    | some b =>
      match key? input i with
      | none => tokensFrom input bound (i + 1) seen (tokens.push (.literal b))
      | some key =>
        let length := match seen[key]? with
          | some j => if i - j ≤ 0x8000 then commonLength input j i maxCopy else 0
          | none => 0
        let distance := i - (seen[key]?).getD 0
        let seen := seen.insert key i
        if length < 3 then tokensFrom input bound (i + 1) seen (tokens.push (.literal b))
        else tokensFrom input bound (i + length) seen (tokens.push (.copy length distance))

def tokens (bytes : Bytes) : Array Token := tokensFrom bytes.toArray bytes.length 0 ∅ #[]

/-! ## The fixed code -/

/-- The last symbol whose least value is at most `value`, with what remains and its bits. -/
def amountSymbol (table : Array (Nat × Nat)) (value : Nat) : Nat × List Bool :=
  let symbol := (table.toList.filter fun (least, _) => least ≤ value).length - 1
  let (least, bits) := table.getD symbol (0, 0)
  (symbol, numberBits bits (value - least))

def Token.bits : Token → List Bool
  | .literal b => fixedWord b.toNat
  | .copy length distance =>
    let (lengthSymbol, lengthBits) := amountSymbol lengthTable length
    let (distanceSymbol, distanceBits) := amountSymbol distanceTable distance
    fixedWord (257 + lengthSymbol) ++ lengthBits
      ++ (numberBits 5 distanceSymbol).reverse ++ distanceBits

/-- One final block in the fixed code. -/
def compress (bytes : Bytes) : Bytes :=
  bytesOfBits ([true, true, false] ++ (tokens bytes).toList.flatMap Token.bits ++ fixedWord 256)

/-! ## Deflating -/

/-- At level 0 bytes are only stored. -/
def deflate (level : Nat) (bytes : Bytes) : Bytes :=
  let stored := store bytes
  if level = 0 then stored
  else
    let packed := compress bytes
    if packed.length < stored.length ∧ inflate packed = .complete bytes
        ∧ skipFrame packed = packed then packed
    else stored

end ChunkArchive.Deflate
