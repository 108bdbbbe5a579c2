import Std.Data.TreeMap
import ChunkArchive.Text.Basic

/-!
# Names of hashes

Scripts and functions are identified by hashes of 32 bits. A name table says what some of them are
called. It is read from lines `hash:name`; lines that are not of this form are passed over, and a
later line for the same hash replaces an earlier one.
-/

set_option autoImplicit false

namespace ChunkArchive

open Text

structure NameTable where
  entries : Std.TreeMap UInt32 String

namespace NameTable

def empty : NameTable := ⟨∅⟩

def insert (names : NameTable) (hash : UInt32) (name : String) : NameTable :=
  ⟨names.entries.insert hash name⟩

def get? (names : NameTable) (hash : UInt32) : Option String := names.entries[hash]?

def contains (names : NameTable) (hash : UInt32) : Bool := names.entries.contains hash

def size (names : NameTable) : Nat := names.entries.size

/-- The name of the hash, or `Func_` and its eight digits where it has none. -/
def nameOf (names : NameTable) (hash : UInt32) : String :=
  (names.get? hash).getD ("Func_" ++ Numeral.hex 8 hash.toNat)

/-! ## Reading -/

/-- The hash that a numeral denotes: hexadecimal behind `0x` and where it has exactly eight
hexadecimal digits, decimal otherwise. -/
def hash? (numeral : List Char) : Option UInt32 :=
  let value := match numeral with
    | '0' :: 'x' :: digits | '0' :: 'X' :: digits => Numeral.parse? 16 0x100000000 digits
    | _ =>
      if numeral.length = 8 ∧ numeral.all fun c => (Numeral.digit? 16 c).isSome then
        Numeral.parse? 16 0x100000000 numeral
      else Numeral.parse? 10 0x100000000 numeral
  value.map UInt32.ofNat

/-- The hash and the name that a line gives. -/
def entry? (line : List Char) : Option (UInt32 × String) :=
  (splitOnce? ':' line).bind fun (numeral, name) =>
    (hash? (trim numeral)).map fun hash => (hash, String.ofList (trim name))

def parse (text : String) : NameTable :=
  ((lines text.toList).filterMap entry?).foldl (fun names (hash, name) => names.insert hash name)
    empty

end NameTable

end ChunkArchive
