import ChunkArchive.Script.Module
import ChunkArchive.Text.Quoted

/-!
# Pseudo-code

A module as lines of text to read. Every statement is one line.
-/

set_option autoImplicit false

namespace ChunkArchive

def joined (items : List String) : String := ", ".intercalate items

/-! ## Values -/

namespace Value

/-- A hash is shown by its name where it has one. -/
def hashText (names : NameTable) (n : UInt32) : String :=
  (names.get? n).getD (Numeral.prefixedHex 1 n.toNat)

def tuple {n : Nat} (v : Vector Single n) : String := joined (v.toList.map Single.text)

mutual

def text (names : NameTable) : Value → String
  | .float x => x.text
  | .uint n => hashText names n
  | .short n => toString n.toInt
  | .byte n => toString n.toNat
  | .bool b => if b then "true" else "false"
  | .vec3 v => "Vec3(" ++ tuple v ++ ")"
  | .vec4 v => "Vec4(" ++ tuple v ++ ")"
  | .matrix v => "[" ++ tuple v ++ "]"
  | .string s => Text.quote s
  | .list items => "[" ++ joined (texts names items) ++ "]"

def texts (names : NameTable) : List Value → List String
  | [] => []
  | v :: vs => text names v :: texts names vs

end

end Value

/-! ## Statements -/

namespace Statement

def assignment (names : NameTable) (offset : UInt32) (value : Value) : String :=
  let target := "var" ++ Numeral.hex 1 offset.toNat ++ " = " ++ value.text names
  match value with
  | .uint n => (if names.contains n then "hash " else "uint ") ++ target
  | .list _ => target
  | _ => value.kind ++ " " ++ target

def line (names : NameTable) : Statement → String
  | .assign offset value => assignment names offset value
  | .command _ id arguments => s!"CMD {id} ({joined (Value.texts names arguments)})"
  | .operation opcode operand => s!"OpCode {opcode.name} Reg {operand}"

end Statement

def badMoveText (width : UInt32) (offset : Nat) : String := (Error.moveWidth width offset).message

/-- The remark on a function that is not complete. -/
def Status.remark? : Status → Option String
  | .complete => none
  | .truncated offset => some s!"// truncated at code offset {Numeral.prefixedHex 1 offset}"
  | .badMove width offset => some ("// decoding stopped: " ++ badMoveText width offset)

/-! ## Modules -/

def indent (line : String) : String := "    " ++ line

def Function.lines (names : NameTable) (f : Function) : List String :=
  (f.name ++ "_" ++ Numeral.hex 1 f.flags.toNat ++ "() \x7b")
    :: f.body.statements.toList.map (fun s => indent (s.line names))
    ++ f.body.status.remark?.toList.map indent ++ ["\x7d"]

def Script.lines (names : NameTable) (s : Script) : List String :=
  ["", "Script Hash " ++ s.name, s!"Script String Hash BufferSize: {s.stringBufferSize}"]
    ++ s.functions.flatMap fun f => "" :: f.lines names

namespace ScriptModule

/-- Up to this value the words of the hash table are counts and not hashes. -/
def maxCount : UInt32 := 100

def lines (names : NameTable) (m : ScriptModule) : List String :=
  let hashes := (m.hashTable.filter (maxCount < ·)).map names.nameOf
  ["Script Type " ++ names.nameOf m.hashType, "Hash Table: [ " ++ joined hashes ++ " ]",
      "String Table: [" ++ joined (m.strings.map Text.quote) ++ "]", "String Hashes: ["]
    ++ m.stringHashes.map (fun entry => indent s!"{entry.offset} {names.nameOf entry.hash}")
    ++ "]" :: m.scripts.flatMap (Script.lines names)

def pseudocode (names : NameTable) (m : ScriptModule) : String :=
  String.join ((m.lines names).map fun line => line ++ "\n")

end ScriptModule

end ChunkArchive
