import ChunkArchive.Chunk.Node
import ChunkArchive.Steps
import ChunkArchive.Script.Body

/-!
# Script modules

A module is a chunk with others inside it: the header chunk lists its scripts, one function table
for each script lists the functions, and the data chunk holds what they share. Two more chunks with
hashes may be missing.
-/

set_option autoImplicit false

namespace ChunkArchive

/-! ## The data chunk -/

/-- A data chunk: a header of 16 bytes, the pool, the code, the string table, and padding. -/
structure ScriptData where
  hashType : UInt32
  pool : Array UInt32
  code : List UInt16
  stringTable : Bytes
  padding : Bytes
  /-- The length of the string table according to the header. -/
  stringTableSize : UInt16
  reserved : UInt16
  deriving DecidableEq, Repr

namespace ScriptData

def headerLength : Nat := 16

/-- The pool has to be there as a whole; code and strings are cut off where the data ends. -/
def parse (data : Bytes) : Except Error ScriptData := do
  let header : Reader (UInt32 × UInt32 × UInt32 × UInt16 × UInt16) := do
    return (← Reader.word32, ← Reader.word32, ← Reader.word32, ← Reader.word16, ← Reader.word16)
  let ((hashType, codeSize, poolSize, stringTableSize, reserved), rest) ← header data
  if rest.length < poolSize.toNat then
    .error (.format (.poolOutside poolSize.toNat data.length))
  let behindPool := rest.drop poolSize.toNat
  let behindCode := behindPool.drop codeSize.toNat
  return {
    hashType, stringTableSize, reserved
    pool := (Bytes.words32 (rest.take poolSize.toNat)).toArray
    code := Bytes.words16 (behindPool.take codeSize.toNat)
    stringTable := behindCode.take stringTableSize.toNat
    padding := behindCode.drop stringTableSize.toNat }

/-- The strings of the table, each ended by a zero byte but for the last one, which need not be. -/
def strings (d : ScriptData) : List String :=
  let table := if d.stringTable.getLast? = some 0 then d.stringTable.dropLast else d.stringTable
  if table.isEmpty then [] else (table.splitOn 0).map Utf8.decodeLossy

end ScriptData

/-! ## Modules -/

structure StringHash where
  hash : UInt32
  unknown : UInt32
  offset : UInt32
  deriving DecidableEq, Repr

structure Function where
  nameHash : UInt32
  name : String
  codeStart : UInt32
  flags : UInt32
  body : Body
  deriving Repr

structure Script where
  nameHash : UInt32
  name : String
  stringBufferSize : UInt32
  functions : List Function
  deriving Repr

structure ScriptModule extends ScriptData where
  scripts : List Script
  stringHashes : List StringHash
  hashTable : List UInt32
  deriving Repr

namespace ScriptModule

/-- The payload of the first chunk of a type inside the module. -/
def payload? (node : Node) (typeId : UInt16) : Option Bytes :=
  (node.child? typeId).bind Node.payload?

def require (part : ModulePart) : Option Bytes → Except Error Bytes
  | some payload => .ok payload
  | none => .error (.missingChunk part)

/-- The words of the payload two by two. -/
def pairs : List UInt32 → List (UInt32 × UInt32)
  | a :: b :: rest => (a, b) :: pairs rest
  | _ => []

/-- The words of the payload three by three. -/
def triples : List UInt32 → List (UInt32 × UInt32 × UInt32)
  | a :: b :: c :: rest => (a, b, c) :: triples rest
  | _ => []

def readFunctions (pools : Pools) (table : Bytes) : List Function :=
  (triples (Bytes.words32 table)).map fun (nameHash, codeStart, flags) =>
    { nameHash, name := pools.names.nameOf nameHash, codeStart, flags,
      body := .decode pools codeStart }

/-- Decompiles the module whose chunks lie inside the node. -/
def decompile (names : NameTable) (node : Node) : Except Error ScriptModule := do
  let header ← require .header (payload? node ChunkType.scriptHeader)
  let data ← require .data (payload? node ChunkType.scriptData)
  let tables := node.childrenOfType ChunkType.scriptFunctionTable
  let entries := pairs (Bytes.words32 header)
  if tables.length < entries.length then .error (.missingChunk .functionTable)
  let stringHashes := triples (Bytes.words32
    ((payload? node ChunkType.scriptStringHashes).getD []))
  let hashTable := Bytes.words32 ((payload? node ChunkType.scriptHashBundle).getD [])
  let data ← ScriptData.parse data
  let pools : Pools :=
    { pool := data.pool, code := data.code, strings := data.stringTable, names }
  let scripts := (entries.zip tables).map fun ((nameHash, stringBufferSize), table) =>
    { nameHash, name := names.nameOf nameHash, stringBufferSize,
      functions := readFunctions pools (table.payload?.getD []) : Script }
  return { data with
    scripts
    stringHashes := stringHashes.map fun (hash, unknown, offset) => { hash, unknown, offset }
    hashTable }

/-! ## Functions -/

def function (m : ScriptModule) (script function : Nat) : Except Error Function :=
  match m.scripts[script]?.bind fun s => s.functions[function]? with
  | some f => .ok f
  | none => .error (.functionNotFound script function)

/-- The functions that are not complete, with the numbers of script and function. -/
def incomplete (m : ScriptModule) : List (Nat × Nat × Status) :=
  m.scripts.zipIdx.flatMap fun (s, script) =>
    s.functions.zipIdx.filterMap fun (f, function) =>
      if f.body.status = .complete then none else some (script, function, f.body.status)

end ScriptModule

end ChunkArchive
