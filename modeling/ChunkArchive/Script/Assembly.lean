import ChunkArchive.Script.Module

/-!
# Assembling modules

The payloads of a module anew: every function is written out from its listing, one after the other,
and all else is written as it was read.
-/

set_option autoImplicit false

namespace ChunkArchive

structure Assembly where
  data : Bytes
  header : Bytes
  /-- One for each script, in order. -/
  functionTables : List Bytes
  deriving DecidableEq, Repr

namespace Function

/-- The words of the listing. One that does not end in `END` gets one. -/
def words (f : Function) : List UInt16 :=
  let operations := f.body.operations.toList
  let ended := operations.getLast?.map (fun o => o.opcode) = some .stop
  operations.flatMap (fun o => o.toInstruction.words)
    ++ if ended then [] else [Opcode.stop.word 0]

def length (functions : List Function) : Nat := (functions.flatMap words).length

end Function

namespace ScriptModule

/-- The table of functions whose words follow one another from word number `start` on. -/
def functionTable : (start : Nat) → List Function → Except Error Bytes
  | _, [] => .ok []
  | start, f :: rest =>
    if start < 0x100000000 then do
      let others ← functionTable (start + f.words.length) rest
      return Bytes.ofWords32 [f.nameHash, UInt32.ofNat start, f.flags] ++ others
    else .error (.format .codeTooLarge)

def functionTables : (start : Nat) → List Script → Except Error (List Bytes)
  | _, [] => .ok []
  | start, s :: rest => do
    let table ← functionTable start s.functions
    let others ← functionTables (start + Function.length s.functions) rest
    return table :: others

def assemble (m : ScriptModule) : Except Error Assembly := do
  let functionTables ← functionTables 0 m.scripts
  let code := m.scripts.flatMap fun s => s.functions.flatMap Function.words
  if 0x100000000 ≤ 2 * code.length then .error (.format .codeTooLarge)
  if 0x100000000 ≤ 4 * m.pool.size then .error (.format .poolTooLarge)
  let sizes := [m.hashType, UInt32.ofNat (2 * code.length), UInt32.ofNat (4 * m.pool.size)]
  return {
    header := Bytes.ofWords32 (m.scripts.flatMap fun s => [s.nameHash, s.stringBufferSize])
    functionTables
    data := Bytes.ofWords32 sizes ++ Bytes.ofWords16 [m.stringTableSize, m.reserved]
      ++ Bytes.ofWords32 m.pool.toList ++ Bytes.ofWords16 code ++ m.stringTable ++ m.padding }

end ScriptModule

end ChunkArchive
