import ChunkArchive.Decimal.Shortest

/-!
# Binary32 numbers

A number of 32 bits in the binary32 format is kept as its bits, so that equality is equality of
bits and every NaN keeps its payload. What the numbers mean is computed from sign, exponent and
fraction in exact arithmetic.
-/

set_option autoImplicit false

namespace ChunkArchive

open Decimal

structure Single where
  bits : UInt32
  deriving DecidableEq, Repr, Inhabited

namespace Single

/-! ## Fields -/

def isNegative (x : Single) : Bool := 0x80000000 ≤ x.bits.toNat

/-- The bits without the sign. They are ordered as the magnitudes are. -/
def magnitude (x : Single) : Nat := x.bits.toNat % 0x80000000

def exponentField (x : Single) : Nat := x.magnitude / 0x800000

def fraction (x : Single) : Nat := x.magnitude % 0x800000

def infinity : Single := ⟨0x7F800000⟩

def isNaN (x : Single) : Bool := infinity.magnitude < x.magnitude

def isFinite (x : Single) : Bool := x.magnitude < infinity.magnitude

def isZero (x : Single) : Bool := x.magnitude = 0

def one : Single := ⟨0x3F800000⟩

/-- A finite magnitude is `significand * 2 ^ exponent`. -/
def significand (x : Single) : Nat :=
  if x.exponentField = 0 then x.fraction else x.fraction + 0x800000

def exponent (x : Single) : Int := Int.ofNat (max 1 x.exponentField) - 150

/-- Whether the number lies strictly beyond the positive number `limit` on either side of zero. -/
def isBeyond (x limit : Single) : Bool := !x.isNaN && limit.magnitude < x.magnitude

/-! ## Integers -/

/-- The number nearest to `n`, of two the one with an even significand. -/
def ofNat (n : Nat) : Single :=
  if n = 0 then ⟨0⟩
  else
    let shift := Nat.log2 n + 1 - 24
    let whole := n / Nat.pow 2 shift
    let rest := 2 * (n % Nat.pow 2 shift)
    let rounded :=
      if Nat.pow 2 shift < rest ∨ (rest = Nat.pow 2 shift ∧ whole % 2 = 1) then whole + 1 else whole
    let top := Nat.log2 n
    let exponentField := shift + 150
    -- a carry out of the significand runs into the exponent field, where it belongs
    if 23 ≤ top then ⟨UInt32.ofNat (exponentField * 0x800000 + rounded - 0x800000)⟩
    else ⟨UInt32.ofNat ((top + 127) * 0x800000 + n * Nat.pow 2 (23 - top) - 0x800000)⟩

def ofInt (n : Int) : Single :=
  if n < 0 then ⟨(ofNat n.natAbs).bits ||| 0x80000000⟩ else ofNat n.toNat

/-- The integer part, held between `low` and `high`. Of a NaN it is zero. -/
def truncate (x : Single) (low high : Int) : Int :=
  if x.isNaN then 0
  else if !x.isFinite then (if x.isNegative then low else high)
  else
    let whole := x.significand * Nat.pow 2 x.exponent.toNat / Nat.pow 2 (-x.exponent).toNat
    let signed := if x.isNegative then -Int.ofNat whole else Int.ofNat whole
    max low (min high signed)

/-! ## Text -/

/-- The magnitude on the grid of the binary32 numbers. -/
def toBinary (x : Single) : Binary :=
  ⟨x.significand, x.exponent, x.fraction = 0 && 1 < x.exponentField⟩

/-- The magnitude on the grid of the binary64 numbers, whose significands have 53 bits. -/
def toWideBinary (x : Single) : Binary :=
  let shift := 52 - Nat.log2 x.significand
  let significand := x.significand * Nat.pow 2 shift
  ⟨significand, x.exponent - Int.ofNat shift, significand = 0x10000000000000⟩

/-- Positional from 0.0001 up to below 10^16. -/
def plain : Layout := ⟨.upper, -3, 16, false⟩

/-- Positional from 0.00001 up to below 10^16. -/
def wide : Layout := ⟨.even, -4, 16, true⟩

def signText (x : Single) : String := if x.isNegative then "-" else ""

/-- The shortest text that reads back as the same binary32 number. A NaN has no sign. -/
def text (x : Single) : String :=
  if x.isNaN then "NaN"
  else if !x.isFinite then x.signText ++ "inf"
  else if x.isZero then x.signText ++ "0.0"
  else x.signText ++ plain.text x.toBinary

/-- The shortest text that reads back as the same binary64 number, if the number is finite. -/
def wideText? (x : Single) : Option String :=
  if !x.isFinite then none
  else if x.isZero then some (x.signText ++ "0.0")
  else some (x.signText ++ wide.text x.toWideBinary)

end Single

end ChunkArchive
