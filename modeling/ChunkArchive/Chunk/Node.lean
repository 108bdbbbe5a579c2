import ChunkArchive.Bytes
import ChunkArchive.Chunk.Type

/-!
# Chunks

A chunk has a header of 12 bytes and is either a leaf with a payload or a branch with chunks inside
it. The payload of a leaf lies in one of the data blocks, at the offset that the header gives; a
branch is followed in the table by the headers of the chunks inside it. A header also says by a flag
which of the two its chunk is. Flag and body are independent here, since a chunk may be put together
from parts that disagree.
-/

set_option autoImplicit false

namespace ChunkArchive

structure Header where
  typeId : UInt16
  flags : UInt16
  offset : UInt32
  /-- Of a leaf the length of its payload, of a branch the length of the headers inside it. -/
  size : UInt32
  deriving DecidableEq, Repr, Inhabited

namespace Header

/-- The bytes that a header takes in the table. -/
def length : Nat := 12

def childrenFlag : UInt16 := 0x8000

def hasChildren (h : Header) : Bool := (h.flags &&& childrenFlag) ≠ 0

/-- Which of the data blocks holds the payload, from 0 to 3. -/
def blockIndex (h : Header) : Nat := ((h.flags >>> 12) &&& 3).toNat

/-- Two bits of the flags that are read as an alignment. -/
def rawAlignment (h : Header) : UInt16 := (h.flags >>> 1) &&& 10

/-- The payload starts at a multiple of this when its block is packed anew. -/
def alignment (h : Header) : Nat :=
  if h.rawAlignment = 512 then 16 else if ((h.flags >>> 8) &&& 1) ≠ 0 then 8 else 4

/-- The end of the payload in its data block. -/
def stop (h : Header) : Nat := h.offset.toNat + h.size.toNat

def bytes (h : Header) : Bytes :=
  Bytes.ofWord16 h.typeId ++ Bytes.ofWord16 h.flags ++ Bytes.ofWord32 h.offset
    ++ Bytes.ofWord32 h.size

/-- The header that stands at the front of the bytes. -/
def read? : Bytes → Option Header
  | t₀ :: t₁ :: f₀ :: f₁ :: o₀ :: o₁ :: o₂ :: o₃ :: s₀ :: s₁ :: s₂ :: s₃ :: _ =>
    some ⟨Bytes.toWord16 t₀ t₁, Bytes.toWord16 f₀ f₁, Bytes.toWord32 o₀ o₁ o₂ o₃,
      Bytes.toWord32 s₀ s₁ s₂ s₃⟩
  | _ => none

theorem read?_bytes (h : Header) (rest : Bytes) : read? (h.bytes ++ rest) = some h := by
  simp [bytes, read?, Bytes.ofWord16, Bytes.ofWord32, Bytes.toWord16_ofWord16,
    Bytes.toWord32_ofWord32]

end Header

/-- The least multiple of the alignment that is no smaller than `value`; an alignment of zero is
taken for one. -/
def alignUp (value alignment : Nat) : Nat :=
  (value + (max 1 alignment - 1)) / max 1 alignment * max 1 alignment

inductive Node where
  | leaf (header : Header) (payload : Bytes)
  | branch (header : Header) (children : List Node)
  deriving Inhabited, Repr

namespace Node

def header : Node → Header
  | .leaf h _ | .branch h _ => h

def withHeader (h : Header) : Node → Node
  | .leaf _ payload => .leaf h payload
  | .branch _ children => .branch h children

def children : Node → List Node
  | .leaf _ _ => []
  | .branch _ cs => cs

def payload? : Node → Option Bytes
  | .leaf _ payload => some payload
  | .branch _ _ => none

/-- The first chunk of a type directly inside this one. -/
def child? (node : Node) (typeId : UInt16) : Option Node :=
  node.children.find? fun c => c.header.typeId = typeId

def childrenOfType (node : Node) (typeId : UInt16) : List Node :=
  node.children.filter fun c => c.header.typeId = typeId

/-! ## The length in the table -/

mutual

/-- The bytes that the headers of a chunk and of all chunks inside it take. -/
def tableLength : Node → Nat
  | .leaf _ _ => Header.length
  | .branch _ cs => Header.length + tableLengths cs

def tableLengths : List Node → Nat
  | [] => 0
  | n :: ns => tableLength n + tableLengths ns

end

/-! ## Building chunks whose header fits the body -/

def ofPayload (typeId flags : UInt16) (offset : UInt32) (payload : Bytes) : Node :=
  .leaf ⟨typeId, flags &&& ~~~Header.childrenFlag, offset, UInt32.ofNat payload.length⟩ payload

def ofChildren (typeId flags : UInt16) (offset : UInt32) (children : List Node) : Node :=
  .branch ⟨typeId, flags ||| Header.childrenFlag, offset, UInt32.ofNat (tableLengths children)⟩
    children

/-! ## Equality -/

mutual

def decEq : (a b : Node) → Decidable (a = b)
  | .leaf h p, .leaf h' p' =>
    if e : h = h' ∧ p = p' then isTrue (by rw [e.1, e.2])
    else isFalse fun eq => by cases eq; exact e ⟨rfl, rfl⟩
  | .branch h cs, .branch h' cs' =>
    if e : h = h' then
      match decEqs cs cs' with
      | isTrue es => isTrue (by rw [e, es])
      | isFalse es => isFalse fun eq => by cases eq; exact es rfl
    else isFalse fun eq => by cases eq; exact e rfl
  | .leaf _ _, .branch _ _ => isFalse nofun
  | .branch _ _, .leaf _ _ => isFalse nofun

def decEqs : (as bs : List Node) → Decidable (as = bs)
  | [], [] => isTrue rfl
  | a :: as, b :: bs =>
    match decEq a b with
    | isTrue e =>
      match decEqs as bs with
      | isTrue es => isTrue (by rw [e, es])
      | isFalse es => isFalse fun eq => by cases eq; exact es rfl
    | isFalse e => isFalse fun eq => by cases eq; exact e rfl
  | [], _ :: _ => isFalse nofun
  | _ :: _, [] => isFalse nofun

end

instance : DecidableEq Node := decEq

end Node

end ChunkArchive
