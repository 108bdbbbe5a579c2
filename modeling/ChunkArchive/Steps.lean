import ChunkArchive.Bytes
import ChunkArchive.Error

/-!
# Byte strings step by step

A reader takes what it needs from the front of a byte string and leaves the rest. A program that
changes something where it is stops where it refuses a call, and where a range or an index is not
there; what it has changed until then stays changed.
-/

set_option autoImplicit false

namespace ChunkArchive

/-! ## Reading from the front -/

abbrev Reader := StateT Bytes (Except Error)

namespace Reader

def fail {α : Type} (e : Error) : Reader α := fun _ => .error e

def byte : Reader UInt8
  | b :: rest => .ok (b, rest)
  | _ => .error (.file .shortRead)

def word16 : Reader UInt16
  | b₀ :: b₁ :: rest => .ok (Bytes.toWord16 b₀ b₁, rest)
  | _ => .error (.file .shortRead)

def word32 : Reader UInt32
  | b₀ :: b₁ :: b₂ :: b₃ :: rest => .ok (Bytes.toWord32 b₀ b₁ b₂ b₃, rest)
  | _ => .error (.file .shortRead)

def take (n : Nat) : Reader Bytes := fun bytes =>
  if n ≤ bytes.length then .ok (bytes.take n, bytes.drop n) else .error (.file .shortRead)

/-- The bytes before the first zero byte, which is taken as well. -/
def terminated : Reader Bytes := fun bytes =>
  match bytes.dropWhile (· ≠ 0) with
  | _ :: rest => .ok (bytes.takeWhile (· ≠ 0), rest)
  | [] => .error .unexpectedEnd

def all : Reader Bytes := fun bytes => .ok (bytes, [])

/-- Reads `n` items one after the other. -/
def times {α : Type} (item : Reader α) : Nat → Reader (List α)
  | 0 => pure []
  | n + 1 => do
    let first ← item
    let others ← times item n
    return first :: others

end Reader

/-! ## Working in place -/

/-- Why a program that works in place stops. -/
inductive Stop where
  /-- The call is refused. -/
  | refused (e : Error)
  /-- A range or an index lies outside. -/
  | outOfRange
  deriving DecidableEq, Repr

namespace Bytes

/-- The bytes of a range that has to lie inside. -/
def cut (bytes : Bytes) (start stop : Nat) : Except Stop Bytes :=
  match slice? bytes start stop with
  | some part => .ok part
  | none => .error .outOfRange

/-- The buffer with `source` in the given range, which has to lie inside and be as long. -/
def copyInto (buffer : Bytes) (start stop : Nat) (source : Bytes) : Except Stop Bytes :=
  if start ≤ stop ∧ stop ≤ buffer.length ∧ source.length = stop - start then
    .ok (buffer.take start ++ source ++ buffer.drop stop)
  else .error .outOfRange

/-- A buffer that grows takes whatever is written to it. -/
def append (buffer bytes : Bytes) : Except Stop Bytes := .ok (buffer ++ bytes)

end Bytes

end ChunkArchive
