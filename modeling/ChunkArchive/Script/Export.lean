import ChunkArchive.Script.Pseudocode
import ChunkArchive.Text.Json

/-!
# Modules as JSON

A decompiled module with everything that was decoded. The pool, the code and the bytes of the
strings, which are stored in the chunks anyway, are left out.
-/

set_option autoImplicit false

namespace ChunkArchive

namespace Value

def typeName : Value → String
  | .float _ => "float"
  | .uint _ => "u32"
  | .short _ => "short"
  | .byte _ => "byte"
  | .bool _ => "bool"
  | .vec3 _ => "vec3"
  | .vec4 _ => "vec4"
  | .matrix _ => "matrix"
  | .string _ => "string"
  | .list _ => "opaque"

def vectorJson {n : Nat} (v : Vector Single n) : Json := .array (v.toList.map .real)

mutual

def contentJson : Value → Json
  | .float x => .real x
  | .uint n => .nat n.toNat
  | .short n => .int n.toInt
  | .byte n => .nat n.toNat
  | .bool b => .bool b
  | .vec3 v => vectorJson v
  | .vec4 v => vectorJson v
  | .matrix v => vectorJson v
  | .string s => .string s
  | .list items => .array (jsonItems items)

def jsonItems : List Value → List Json
  | [] => []
  | v :: vs => .object [("type", .string v.typeName), ("value", contentJson v)] :: jsonItems vs

end

def json (v : Value) : Json := .object [("type", .string v.typeName), ("value", v.contentJson)]

end Value

def Operation.json (o : Operation) : Json :=
  .object <|
    [("opcode", .string o.opcode.name), ("reg_value", .nat o.operand.toNat),
      ("reg_value_ex", .nat o.extension.toNat)]
    ++ (o.fetched.map fun v => ("decoded_value", v.json)).toList
    ++ [("code_offset", .nat o.offset)]

def Variable.json (v : Variable) : Json :=
  let source : Option UInt32 → Json
    | some slot => .nat slot.toNat
    | none => .null
  .object [("struct_offset", .nat v.offset.toNat), ("value", v.value.json),
    ("sources", .array (v.sources.map source))]

def Statement.json : Statement → Json
  | .assign offset value =>
    .object [("kind", .string "assign"), ("offset", .nat offset.toNat), ("value", value.json)]
  | .command offset id arguments =>
    .object [("kind", .string "command"), ("offset", .nat offset.toNat),
      ("command", .nat id.toNat), ("args", .array (arguments.map Value.json))]
  | .operation opcode operand =>
    .object [("kind", .string "op"), ("opcode", .string opcode.name),
      ("operand", .nat operand.toNat)]

def Status.json : Status → Json
  | .complete => .object [("status", .string "complete")]
  | .truncated offset => .object [("status", .string "truncated"), ("offset", .nat offset)]
  | .badMove width offset =>
    .object [("status", .string "failed"), ("reason", .string (badMoveText width offset))]

def Function.json (f : Function) : Json :=
  .object [("name_hash", .nat f.nameHash.toNat), ("name", .string f.name),
    ("code_start_index", .nat f.codeStart.toNat), ("flags", .nat f.flags.toNat),
    ("operations", .array (f.body.operations.toList.map Operation.json)),
    ("variables", .object (f.body.vars.toList.map fun v =>
      (toString v.offset.toNat, v.json))),
    ("statements", .array (f.body.statements.toList.map Statement.json)),
    ("status", f.body.status.json)]

def Script.json (s : Script) : Json :=
  .object [("name_hash", .nat s.nameHash.toNat), ("name", .string s.name),
    ("string_buffer_size", .nat s.stringBufferSize.toNat),
    ("functions", .array (s.functions.map Function.json))]

def StringHash.json (entry : StringHash) : Json :=
  .object [("hash", .nat entry.hash.toNat), ("unknown", .nat entry.unknown.toNat),
    ("offset", .nat entry.offset.toNat)]

def ScriptModule.json (m : ScriptModule) : Json :=
  .object [("hash_type", .nat m.hashType.toNat), ("scripts", .array (m.scripts.map Script.json)),
    ("strings", .array (m.strings.map .string)),
    ("string_hashes", .array (m.stringHashes.map StringHash.json)),
    ("hash_table", .array (m.hashTable.map fun h => .nat h.toNat))]

end ChunkArchive
