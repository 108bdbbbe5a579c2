/-!
# Byte strings

Byte strings are lists of bytes. Words are stored low byte first. Reading is done from the front:
a read either takes what it asked for and leaves the rest, or there were too few bytes.
-/

set_option autoImplicit false

namespace ChunkArchive

abbrev Bytes := List UInt8

namespace Bytes

/-! ## Words -/

def ofWord16 (w : UInt16) : Bytes :=
  [w.toUInt8, UInt8.ofNat (w.toNat / 0x100)]

def ofWord32 (w : UInt32) : Bytes :=
  [w.toUInt8, UInt8.ofNat (w.toNat / 0x100), UInt8.ofNat (w.toNat / 0x10000),
    UInt8.ofNat (w.toNat / 0x1000000)]

def toWord16 (b₀ b₁ : UInt8) : UInt16 := UInt16.ofNat (b₀.toNat + 0x100 * b₁.toNat)

def toWord32 (b₀ b₁ b₂ b₃ : UInt8) : UInt32 :=
  UInt32.ofNat (b₀.toNat + 0x100 * b₁.toNat + 0x10000 * b₂.toNat + 0x1000000 * b₃.toNat)

/-- The whole words at the front; one to three bytes left over are dropped. -/
def words32 : Bytes → List UInt32
  | b₀ :: b₁ :: b₂ :: b₃ :: rest => toWord32 b₀ b₁ b₂ b₃ :: words32 rest
  | _ => []

/-- The whole words at the front; a last odd byte is dropped. -/
def words16 : Bytes → List UInt16
  | b₀ :: b₁ :: rest => toWord16 b₀ b₁ :: words16 rest
  | _ => []

def ofWords32 (words : List UInt32) : Bytes := words.flatMap ofWord32

def ofWords16 (words : List UInt16) : Bytes := words.flatMap ofWord16

@[simp] theorem ofWord16_length (w : UInt16) : (ofWord16 w).length = 2 := rfl

@[simp] theorem ofWord32_length (w : UInt32) : (ofWord32 w).length = 4 := rfl

theorem toWord16_ofWord16 (w : UInt16) :
    toWord16 w.toUInt8 (UInt8.ofNat (w.toNat / 0x100)) = w := by
  apply UInt16.toNat_inj.mp
  have := w.toNat_lt
  simp only [toWord16, UInt16.toNat_ofNat', UInt8.toNat_ofNat', UInt16.toNat_toUInt8]
  omega

theorem toWord32_ofWord32 (w : UInt32) :
    toWord32 w.toUInt8 (UInt8.ofNat (w.toNat / 0x100))
      (UInt8.ofNat (w.toNat / 0x10000)) (UInt8.ofNat (w.toNat / 0x1000000)) = w := by
  apply UInt32.toNat_inj.mp
  have := w.toNat_lt
  simp only [toWord32, UInt32.toNat_ofNat', UInt8.toNat_ofNat', UInt32.toNat_toUInt8]
  omega

/-! ## Ranges -/

def zeros (n : Nat) : Bytes := List.replicate n 0

/-- The bytes of the half-open range from `start` to `stop`, if it lies inside. -/
def slice? (bytes : Bytes) (start stop : Nat) : Option Bytes :=
  if start ≤ stop ∧ stop ≤ bytes.length then some ((bytes.drop start).take (stop - start))
  else none

/-- The first `n` bytes, filled up with zeros where there are fewer. -/
def padTo (n : Nat) (bytes : Bytes) : Bytes := bytes.take n ++ zeros (n - bytes.length)

/-- Writes `patch` over the bytes from `start` on. A string that ends before `start` is first
filled up with zeros; one that ends inside the patch grows. -/
def overwrite (bytes : Bytes) (start : Nat) (patch : Bytes) : Bytes :=
  padTo start bytes ++ patch ++ bytes.drop (start + patch.length)

end Bytes

end ChunkArchive
