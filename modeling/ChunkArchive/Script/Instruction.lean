import ChunkArchive.Text.Basic

/-!
# Instructions

A code region is a row of words of 16 bits. The six highest bits of a word say what to do, the ten
lowest are the operand; some instructions take one more word. A function is listed from its first
word up to the first `END`, or up to the end of the code.
-/

set_option autoImplicit false

namespace ChunkArchive

/-! ## Operations -/

inductive Opcode where
  | read
  | readWide
  | string
  | stringWide
  | set
  | jump
  | jumpNoAdjust
  | command
  | commandWide
  | noop
  | run
  | stop
  | pointer
  | move8
  | move4
  | setFunctionHash
  | shiftPointer
  | shiftPointerWide
  | moveIndirect
  | unknown (code : UInt8)
  deriving DecidableEq, Repr, Inhabited

namespace Opcode

/-- The operations with a meaning, by code. -/
def registry : List (UInt8 × Opcode × String) := [
  (0x00, .read, "READ"), (0x01, .readWide, "READ_U24"), (0x02, .string, "STRING_OFFSET"),
  (0x03, .stringWide, "STRING_OFFSETU24"), (0x04, .set, "SET"), (0x05, .jump, "JUMP"),
  (0x06, .jumpNoAdjust, "JUMP_NO_ADJUST"), (0x07, .command, "CMD"),
  (0x08, .commandWide, "CMD_U24"), (0x0A, .noop, "NOOP"), (0x0B, .run, "RUN"),
  (0x0C, .stop, "END"), (0x0E, .pointer, "PTR"), (0x10, .move8, "MOV_8"), (0x11, .move4, "MOV_4"),
  (0x14, .setFunctionHash, "SET_FUNC_HASH"), (0x15, .shiftPointer, "SHIFT_PTR"),
  (0x16, .shiftPointerWide, "SHIFT_PTR_U24"), (0x1D, .moveIndirect, "MOV_INDIRECT")]

def ofCode (code : UInt8) : Opcode :=
  ((registry.find? fun entry => entry.1 = code).map fun entry => entry.2.1).getD (.unknown code)

def code : Opcode → UInt8
  | .unknown code => code
  | op => ((registry.find? fun entry => entry.2.1 = op).map Prod.fst).getD 0

def name : Opcode → String
  | .unknown code => "OP_" ++ Numeral.hex 2 code.toNat
  | op => ((registry.find? fun entry => entry.2.1 = op).map fun entry => entry.2.2).getD ""

/-- Whether the word of the operation is followed by another one that belongs to it. -/
def hasExtension : Opcode → Bool
  | .readWide | .stringWide | .jump | .jumpNoAdjust | .commandWide | .shiftPointerWide
  | .moveIndirect => true
  | _ => false

/-! ## Words -/

def ofWord (word : UInt16) : Opcode := ofCode (word >>> 10).toUInt8

def operandOfWord (word : UInt16) : UInt32 := (word &&& 0x3FF).toUInt32

/-- The word of the operation with the ten lowest bits of the operand. -/
def word (op : Opcode) (operand : UInt32) : UInt16 :=
  (operand &&& 0x3FF).toUInt16 ||| (op.code.toUInt16 <<< 10)

end Opcode

/-- An operand with its extension below it. -/
def wideOperand (operand extension : UInt32) : UInt32 := extension + operand * 0x10000

structure Instruction where
  /-- Where the instruction stands in the code region, in bytes. -/
  offset : Nat
  opcode : Opcode
  operand : UInt32
  /-- The word that belongs to it, zero where there is none. -/
  extension : UInt32
  deriving DecidableEq, Repr, Inhabited

namespace Instruction

def wide (i : Instruction) : UInt32 := wideOperand i.operand i.extension

def words (i : Instruction) : List UInt16 :=
  i.opcode.word i.operand :: if i.opcode.hasExtension then [i.extension.toUInt16] else []

end Instruction

/-! ## Listings -/

inductive Ending where
  | finished
  /-- The code ends where a word is needed. -/
  | truncated (offset : Nat)
  deriving DecidableEq, Repr

structure Listing where
  instructions : List Instruction
  ending : Ending
  deriving DecidableEq, Repr

namespace Listing

/-- Lists the code from its first word on, which stands at `offset`, behind the instructions in
`done`, the last of which comes first. -/
def readFrom (done : List Instruction) (offset : Nat) : List UInt16 → Listing
  | [] => ⟨done.reverse, .truncated offset⟩
  | word :: rest =>
    let opcode := Opcode.ofWord word
    let operand := Opcode.operandOfWord word
    if opcode.hasExtension then
      match rest with
      | [] => ⟨done.reverse, .truncated (offset + 2)⟩
      | extension :: rest =>
        readFrom (⟨offset, opcode, operand, extension.toUInt32⟩ :: done) (offset + 4) rest
    else
      let done := ⟨offset, opcode, operand, 0⟩ :: done
      if opcode = .stop then ⟨done.reverse, .finished⟩ else readFrom done (offset + 2) rest

/-- Lists the function that starts at the given word of the code. -/
def read (code : List UInt16) (start : Nat) : Listing := readFrom [] (2 * start) (code.drop start)

end Listing

end ChunkArchive
