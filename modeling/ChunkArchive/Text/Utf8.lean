/-!
# UTF-8

A byte string is cut into pieces from the left: a piece is an encoded character, or a longest run
of bytes that starts one without completing it, or a single byte that can start none. Reading
leniently puts the replacement character in place of every piece that is no character; reading
strictly reports the first of them.
-/

set_option autoImplicit false

namespace ChunkArchive.Utf8

/-! ## Pieces -/

inductive Piece where
  | char (c : Char)
  /-- Bytes that can not be continued to a character, the next byte being what it is. -/
  | illFormed (length : Nat)
  /-- The start of a character, at the end of the bytes. -/
  | cutShort (length : Nat)
  deriving Repr, DecidableEq

/-- A character whose first bytes have been read. The next byte has to lie between `low` and
`high`, each one after it between 0x80 and 0xBF. -/
structure Partial where
  missing : Nat
  low : UInt8
  high : UInt8
  value : Nat
  length : Nat
  deriving Repr, DecidableEq

/-- What the first byte of a piece opens: a character that is now complete, or one that needs more
bytes, or neither. -/
inductive Lead where
  | ascii (c : Char)
  | opens (start : Partial)
  | invalid
  deriving Repr, DecidableEq

def lead (b : UInt8) : Lead :=
  if b < 0x80 then .ascii (Char.ofNat b.toNat)
  else if b < 0xC2 then .invalid
  else if b < 0xE0 then .opens ⟨1, 0x80, 0xBF, b.toNat - 0xC0, 1⟩
  else if b = 0xE0 then .opens ⟨2, 0xA0, 0xBF, 0, 1⟩
  else if b = 0xED then .opens ⟨2, 0x80, 0x9F, 0xD, 1⟩
  else if b < 0xF0 then .opens ⟨2, 0x80, 0xBF, b.toNat - 0xE0, 1⟩
  else if b = 0xF0 then .opens ⟨3, 0x90, 0xBF, 0, 1⟩
  else if b < 0xF4 then .opens ⟨3, 0x80, 0xBF, b.toNat - 0xF0, 1⟩
  else if b = 0xF4 then .opens ⟨3, 0x80, 0x8F, 4, 1⟩
  else .invalid

/-- Begins a new piece with the byte `b`, behind the pieces `done` (the last one first). -/
def start (done : List Piece) (b : UInt8) : List Piece × Option Partial :=
  match lead b with
  | .ascii c => (.char c :: done, none)
  | .opens p => (done, some p)
  | .invalid => (.illFormed 1 :: done, none)

/-- Takes in one byte. -/
def step : List Piece × Option Partial → UInt8 → List Piece × Option Partial
  | (done, none), b => start done b
  | (done, some p), b =>
    if p.low ≤ b ∧ b ≤ p.high then
      let value := 64 * p.value + b.toNat % 64
      if p.missing ≤ 1 then (.char (Char.ofNat value) :: done, none)
      else (done, some ⟨p.missing - 1, 0x80, 0xBF, value, p.length + 1⟩)
    else start (.illFormed p.length :: done) b

def finish : List Piece × Option Partial → List Piece
  | (done, none) => done.reverse
  | (done, some p) => (.cutShort p.length :: done).reverse

def pieces (bytes : List UInt8) : List Piece := finish (bytes.foldl step ([], none))

/-! ## Reading -/

def Piece.charOrReplacement : Piece → Char
  | .char c => c
  | .illFormed _ | .cutShort _ => '\uFFFD'

/-- Reads leniently: every piece that is no character becomes U+FFFD. -/
def decodeLossy (bytes : List UInt8) : String :=
  String.ofList ((pieces bytes).map Piece.charOrReplacement)

/-- The first piece that is no character, and where it begins. -/
inductive Fault where
  | illFormed (length index : Nat)
  | cutShort (index : Nat)
  deriving Repr, DecidableEq

def Fault.message : Fault → String
  | .illFormed length index => s!"invalid utf-8 sequence of {length} bytes from index {index}"
  | .cutShort index => s!"incomplete utf-8 byte sequence from index {index}"

def firstFault? : Nat → List Piece → Option Fault
  | _, [] => none
  | index, .char c :: rest => firstFault? (index + c.utf8Size) rest
  | index, .illFormed length :: _ => some (.illFormed length index)
  | index, .cutShort _ :: _ => some (.cutShort index)

def encode (text : String) : List UInt8 := text.toByteArray.data.toList

/-- Reads strictly. -/
def decode (bytes : List UInt8) : Except Fault String :=
  match String.fromUTF8? bytes.toByteArray with
  | some text => .ok text
  | none => .error ((firstFault? 0 (pieces bytes)).getD (.cutShort bytes.length))

end ChunkArchive.Utf8
