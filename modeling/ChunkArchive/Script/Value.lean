import ChunkArchive.NameTable
import ChunkArchive.Single

/-!
# Values

What a script computes with: numbers of several kinds, vectors, strings, and the bare arguments of
commands whose meaning is not known.
-/

set_option autoImplicit false

namespace ChunkArchive

inductive Value where
  | float (x : Single)
  /-- An integer or a hash. -/
  | uint (n : UInt32)
  | short (n : Int16)
  | byte (n : UInt8)
  | bool (b : Bool)
  | vec3 (v : Vector Single 3)
  | vec4 (v : Vector Single 4)
  /-- Four columns of four. -/
  | matrix (v : Vector Single 16)
  | string (s : String)
  | list (items : List Value)
  deriving Inhabited, Repr

namespace Value

def kind : Value → String
  | .float _ => "float"
  | .uint _ => "uint"
  | .short _ => "short"
  | .byte _ => "byte"
  | .bool _ => "bool"
  | .vec3 _ => "Vec3"
  | .vec4 _ => "Vec4"
  | .matrix _ => "Matrix4x4"
  | .string _ => "string"
  | .list _ => "opaque"

/-- The value as a number, where a command takes one. -/
def single? : Value → Option Single
  | .float x => some x
  | .uint n => some (.ofNat n.toNat)
  | .short n => some (.ofInt n.toInt)
  | .byte n => some (.ofNat n.toNat)
  | _ => none

/-- The value in 16 bits. Numbers with a fraction lose it and stay within bounds, integers keep
their lowest bits; other values stay as they are. -/
def toShort : Value → Value
  | .float x => .short (Int16.ofInt (x.truncate (-0x8000) 0x7FFF))
  | .uint n => .short n.toUInt16.toInt16
  | .byte n => .short n.toUInt16.toInt16
  | v => v

/-- The value in 8 bits. -/
def toByte : Value → Value
  | .float x => .byte (UInt8.ofNat (x.truncate 0 0xFF).toNat)
  | .uint n => .byte n.toUInt8
  | .short n => .byte n.toUInt16.toUInt8
  | v => v

/-- The words that the components of the value would have in the pool. -/
def poolWords? : Value → Option (List UInt32)
  | .float x => some [x.bits]
  | .uint n => some [n]
  | .vec3 v => some (v.toList.map Single.bits)
  | .vec4 v => some (v.toList.map Single.bits)
  | .matrix v => some (v.toList.map Single.bits)
  | _ => none

/-- Beyond this magnitude a pool word is no number with a fraction: 100000. -/
def floatLimit : Single := ⟨0x47C35000⟩

/-- What a word of the pool stands for. A hash that has a name is an integer; so is a word that read
as a number would be beyond the limit. -/
def ofPoolWord (names : NameTable) (word : UInt32) : Value :=
  if names.contains word then .uint word
  else if Single.isBeyond ⟨word⟩ floatLimit then .uint word
  else .float ⟨word⟩

end Value

end ChunkArchive
