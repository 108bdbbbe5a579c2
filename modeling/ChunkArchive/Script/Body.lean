import ChunkArchive.Bytes
import ChunkArchive.Error
import ChunkArchive.Script.Instruction
import ChunkArchive.Script.Value

/-!
# Function bodies

What a function does is found by going once through its listing. Values are pushed on a stack; a
move or a command takes the whole stack and stores a variable at the offset that the pointer has.
Jumps are not followed. Of several stores at one offset the first one is the variable.
-/

set_option autoImplicit false

namespace ChunkArchive

/-- What the functions of a module share. -/
structure Pools where
  pool : Array UInt32
  code : List UInt16
  strings : Bytes
  names : NameTable

/-- The string that begins at `offset`, up to the next zero byte. -/
def stringAt (strings : Bytes) (offset : Nat) : String :=
  Utf8.decodeLossy ((strings.drop offset).takeWhile (· ≠ 0))

structure Operation extends Instruction where
  /-- The value that the instruction has taken from the pool or from the strings. -/
  fetched : Option Value
  deriving Repr

structure Variable where
  offset : UInt32
  value : Value
  /-- For every component the pool slot that it comes from, if it comes from one. -/
  sources : List (Option UInt32)
  deriving Repr

inductive Statement where
  | assign (offset : UInt32) (value : Value)
  /-- A command that stores no value of a known kind. -/
  | command (offset : UInt32) (id : UInt32) (arguments : List Value)
  /-- An instruction without an effect that is known. -/
  | operation (opcode : Opcode) (operand : UInt32)
  deriving Repr

inductive Status where
  | complete
  | truncated (offset : Nat)
  /-- There is a move of a width that does not exist. What follows it is only listed. -/
  | badMove (width : UInt32) (offset : Nat)
  deriving DecidableEq, Repr

structure Body where
  operations : Array Operation
  vars : Array Variable
  statements : Array Statement
  status : Status
  deriving Repr

/-! ## Commands -/

namespace CommandId

def bool : UInt32 := 57
def matrix : UInt32 := 560
def vec4 : UInt32 := 821
def vec3 : UInt32 := 824

end CommandId

/-- A value on the stack, and the pool slot that it comes from. -/
structure Item where
  value : Value
  source : Option UInt32
  deriving Repr

/-- The numbers that exactly `n` items stand for. -/
def numbers? (n : Nat) (items : List Item) : Option (Vector Single n) :=
  (items.mapM fun (item : Item) => item.value.single?).bind fun xs =>
    if h : xs.toArray.size = n then some ⟨xs.toArray, h⟩ else none

/-- The value that a command makes of its arguments, and the sources of its components. -/
def commandValue? (id : UInt32) (arguments : List Item) :
    Option (Value × List (Option UInt32)) :=
  let sources := arguments.map Item.source
  if id = CommandId.vec3 then (numbers? 3 arguments).map fun v => (.vec3 v, sources)
  else if id = CommandId.vec4 then (numbers? 4 arguments).map fun v => (.vec4 v, sources)
  else if id = CommandId.matrix then (numbers? 16 arguments).map fun v => (.matrix v, sources)
  else if id = CommandId.bool then
    match arguments with
    | first :: _ => first.value.single?.map fun x => (.bool (x = .one), [first.source])
    | [] => none
  else none

/-! ## The machine -/

structure Machine where
  /-- The item pushed last comes first. -/
  stack : List Item := []
  pointer : UInt32 := 0
  operations : Array Operation := #[]
  vars : Array Variable := #[]
  statements : Array Statement := #[]
  deriving Repr

namespace Machine

def push (m : Machine) (value : Value) (source : Option UInt32) : Machine :=
  { m with stack := ⟨value, source⟩ :: m.stack }

/-- Pushes the value of a pool slot, if there is such a slot. -/
def fetch (pools : Pools) (m : Machine) (slot : UInt32) : Machine × Option Value :=
  match pools.pool[slot.toNat]? with
  | none => (m, none)
  | some word =>
    let value := Value.ofPoolWord pools.names word
    (m.push value (some slot), some value)

def fetchString (pools : Pools) (m : Machine) (offset : UInt32) : Machine × Option Value :=
  let value := Value.string (stringAt pools.strings offset.toNat)
  (m.push value none, some value)

/-- Keeps a variable, unless there is one at its offset. -/
def keep (m : Machine) (v : Variable) : Machine :=
  if m.vars.any (·.offset = v.offset) then m
  else { m with vars := m.vars.push v }

def state (m : Machine) (s : Statement) : Machine := { m with statements := m.statements.push s }

def assign (m : Machine) (value : Value) (sources : List (Option UInt32)) : Machine :=
  (m.state (.assign m.pointer value)).keep ⟨m.pointer, value, sources⟩

/-- Stores the value pushed last in `width` bytes; the others are dropped. -/
def move (m : Machine) (width : UInt32) : Machine :=
  match m.stack with
  | [] => m
  | top :: _ =>
    let value := if width = 4 then top.value
      else if width = 2 then top.value.toShort
      else top.value.toByte
    { m with stack := [] }.assign value [top.source]

def command (m : Machine) (id : UInt32) : Machine :=
  let arguments := m.stack.reverse
  let m := { m with stack := [] }
  match commandValue? id arguments with
  | some (value, sources) => m.assign value sources
  | none =>
    let values := arguments.map Item.value
    (m.state (.command m.pointer id values)).keep ⟨m.pointer, .list values, []⟩

/-- The effect of an instruction, and the value that it has taken from outside. -/
def perform (pools : Pools) (m : Machine) (i : Instruction) : Machine × Option Value :=
  match i.opcode with
  | .read => m.fetch pools i.operand
  | .readWide => m.fetch pools i.wide
  | .string => m.fetchString pools i.operand
  | .stringWide => m.fetchString pools i.wide
  | .set => (m.push (.uint i.operand) none, none)
  | .command => (m.command i.operand, none)
  | .commandWide => (m.command i.wide, none)
  | .pointer => ({ m with pointer := i.operand * 4 + 4 }, none)
  | .shiftPointer => ({ m with pointer := m.pointer + i.operand }, none)
  | .shiftPointerWide => ({ m with pointer := m.pointer + i.wide }, none)
  | .move8 => (m.move i.operand, none)
  | .jump | .jumpNoAdjust | .moveIndirect | .noop | .stop => (m, none)
  | .run | .move4 | .setFunctionHash | .unknown _ => (m.state (.operation i.opcode i.operand), none)

def step (pools : Pools) (m : Machine) (i : Instruction) : Machine :=
  let (m, fetched) := m.perform pools i
  { m with operations := m.operations.push ⟨i, fetched⟩ }

/-- Lists an instruction without performing it. -/
def list (m : Machine) (i : Instruction) : Machine :=
  { m with operations := m.operations.push ⟨i, none⟩ }

end Machine

/-! ## Decoding -/

/-- Values can be stored in one, two or four bytes. -/
def Instruction.isBadMove (i : Instruction) : Bool :=
  i.opcode = .move8 && i.operand ≠ 1 && i.operand ≠ 2 && i.operand ≠ 4

def Body.ofListing (pools : Pools) (listing : Listing) : Body :=
  let performed := listing.instructions.takeWhile fun i => !i.isBadMove
  let listed := listing.instructions.dropWhile fun i => !i.isBadMove
  let m := listed.foldl Machine.list (performed.foldl (Machine.step pools) {})
  -- a bad move outweighs how the listing ends
  let status := match listed, listing.ending with
    | bad :: _, _ => .badMove bad.operand bad.offset
    | [], .finished => .complete
    | [], .truncated offset => .truncated offset
  ⟨m.operations, m.vars, m.statements, status⟩

/-- The body of the function that starts at the given word of the code. -/
def Body.decode (pools : Pools) (start : UInt32) : Body :=
  .ofListing pools (.read pools.code start.toNat)

end ChunkArchive
