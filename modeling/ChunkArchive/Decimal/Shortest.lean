/-!
# Shortest decimals

The decimal with the fewest digits among those that read back to a given binary fraction, and of
these the one nearest to it. A layout says which of two equally near ones is taken, and how the
digits are written. Everything is exact arithmetic on natural numbers: a fraction is a pair of
numerator and denominator.
-/

set_option autoImplicit false

namespace ChunkArchive.Decimal

/-- The decimal `0.digits * 10 ^ point`. -/
structure Digits where
  digits : List Char
  point : Int
  deriving Repr, DecidableEq

/-- A positive binary fraction `significand * 2 ^ exponent` on its grid. The grid below it is half
as wide as the one above where the significand is the least of its size. -/
structure Binary where
  significand : Nat
  exponent : Int
  isLeast : Bool
  deriving Repr, DecidableEq

/-! ## The interval that rounds to a binary fraction

Four times the value and its two ends, over one common denominator. -/

def Binary.numerator (b : Binary) (quarters : Nat) : Nat := quarters * Nat.pow 2 b.exponent.toNat

def Binary.denominator (b : Binary) : Nat := 4 * Nat.pow 2 (-b.exponent).toNat

def Binary.value (b : Binary) : Nat := b.numerator (4 * b.significand)

def Binary.low (b : Binary) : Nat :=
  b.numerator (4 * b.significand - if b.isLeast then 1 else 2)

def Binary.high (b : Binary) : Nat := b.numerator (4 * b.significand + 2)

/-- Whether `d * 10 ^ e` rounds to the fraction. The ends of the interval do if the significand is
even. -/
def Binary.reads (b : Binary) (d : Nat) (e : Int) : Bool :=
  let scaled := d * Nat.pow 10 e.toNat * b.denominator
  let unit := Nat.pow 10 (-e).toNat
  if b.significand % 2 = 0 then b.low * unit ≤ scaled && scaled ≤ b.high * unit
  else b.low * unit < scaled && scaled < b.high * unit

/-! ## The search -/

/-- The `k` for which the value lies between `10 ^ (k - 1)` and `10 ^ k`, the upper end excluded. -/
def Binary.magnitude (b : Binary) : Int :=
  if b.denominator ≤ b.value then (Nat.toDigits 10 (b.value / b.denominator)).length
  else
    let place := (List.range 400).find? fun j => b.denominator ≤ b.value * Nat.pow 10 (j + 1)
    Int.negOfNat (place.getD 0)

/-- Which of two decimals next to each other is taken when the value lies half-way between them. -/
inductive Tie where
  | upper
  | even
  deriving Repr, DecidableEq

def Tie.choose : Tie → Nat → Nat
  | .upper, d => d + 1
  | .even, d => d + d % 2

/-- The multiple of `10 ^ e` that reads back to the fraction, if one of the two next to the value
does. Where both do, the nearer one is taken. -/
def Binary.onGrid? (b : Binary) (tie : Tie) (e : Int) : Option Nat :=
  let unit := Nat.pow 10 e.toNat * b.denominator
  let scaled := b.value * Nat.pow 10 (-e).toNat
  let d := scaled / unit
  -- if any point of the grid reads back, one of the two around the value does
  match b.reads d e, b.reads (d + 1) e with
  | false, false => none
  | true, false => some d
  | false, true => some (d + 1)
  | true, true =>
    match compare (2 * scaled) ((2 * d + 1) * unit) with
    | .lt => some d
    | .eq => some (tie.choose d)
    | .gt => some (d + 1)

/-- The first of the grids with one, two, … digits that has a hit. Seventeen digits suffice for
every significand of at most 53 bits. -/
def shortest (tie : Tie) (b : Binary) : Digits :=
  let grids := (List.range 17).map fun n => b.magnitude - Int.ofNat (n + 1)
  let hit := grids.findSome? fun e => (b.onGrid? tie e).map fun d => (d, e)
  let (d, e) := hit.getD (0, 0)
  let digits := Nat.toDigits 10 d
  ⟨(digits.reverse.dropWhile (· == '0')).reverse, digits.length + e⟩

/-! ## Layout -/

/-- How ties go, where positional digits end and exponents begin, and whether an exponent that is
not negative has a sign: numbers whose `point` lies between `least` and `most` are written
positionally. -/
structure Layout where
  tie : Tie
  least : Int
  most : Int
  plus : Bool
  deriving Repr

/-- The exponent in decimal digits. -/
def Layout.exponent (layout : Layout) (e : Int) : List Char :=
  (if layout.plus ∧ 0 ≤ e then ['+'] else []) ++ (toString e).toList

/-- Positional texts have at least one digit on either side of the point; the others have one digit
before it, and neither point nor fraction if that is all. -/
def Layout.write (layout : Layout) (x : Digits) : String :=
  let n := x.digits.length
  String.ofList <|
    if layout.least ≤ x.point ∧ x.point ≤ layout.most then
      if x.point ≤ 0 then '0' :: '.' :: List.replicate (-x.point).toNat '0' ++ x.digits
      else
        let whole := x.digits.take x.point.toNat ++ List.replicate (x.point.toNat - n) '0'
        let fraction := x.digits.drop x.point.toNat
        whole ++ '.' :: (if fraction.isEmpty then ['0'] else fraction)
    else
      let fraction := x.digits.drop 1
      x.digits.take 1 ++ (if fraction.isEmpty then [] else '.' :: fraction)
        ++ 'e' :: layout.exponent (x.point - 1)

def Layout.text (layout : Layout) (b : Binary) : String :=
  layout.write (shortest layout.tie b)

end ChunkArchive.Decimal
