/-!
# Plain text

Texts are lists of characters here: white space and trimming, the pieces and lines of a text, and
numerals as they are read and printed.
-/

set_option autoImplicit false

namespace ChunkArchive

namespace Text

/-! ## White space -/

/-- The code points with the property White_Space, as closed ranges. -/
def blankRanges : List (Nat × Nat) :=
  [(0x9, 0xD), (0x20, 0x20), (0x85, 0x85), (0xA0, 0xA0), (0x1680, 0x1680), (0x2000, 0x200A),
    (0x2028, 0x2029), (0x202F, 0x202F), (0x205F, 0x205F), (0x3000, 0x3000)]

def isBlank (c : Char) : Bool := blankRanges.any fun (low, high) => low ≤ c.toNat && c.toNat ≤ high

/-- The text without the blanks at either end. -/
def trim (text : List Char) : List Char :=
  ((text.dropWhile isBlank).reverse.dropWhile isBlank).reverse

/-! ## Pieces and lines -/

/-- The parts before and after the first separator, if there is one. -/
def splitOnce? (separator : Char) (text : List Char) : Option (List Char × List Char) :=
  match text.dropWhile (· ≠ separator) with
  | [] => none
  | _ :: after => some (text.takeWhile (· ≠ separator), after)

/-- Drops one carriage return at the end. -/
def dropReturn (line : List Char) : List Char :=
  if line.getLast? = some '\r' then line.dropLast else line

/-- The lines of a text. A line feed ends a line, together with a carriage return right before it;
text behind the last line feed is a line of its own, kept as it is. -/
def lines (text : List Char) : List (List Char) :=
  let pieces := text.splitOn '\n'
  let ended := pieces.dropLast.map dropReturn
  match pieces.getLast? with
  | none | some [] => ended
  | some last => ended ++ [last]

end Text

namespace Numeral

/-! ## Reading numerals -/

def digit? (base : Nat) (c : Char) : Option Nat :=
  let value :=
    if c.isDigit then some (c.toNat - '0'.toNat)
    else if 'a' ≤ c ∧ c ≤ 'f' then some (c.toNat - 'a'.toNat + 10)
    else if 'A' ≤ c ∧ c ≤ 'F' then some (c.toNat - 'A'.toNat + 10)
    else none
  value.filter (· < base)

/-- The value of a row of digits that continues the digits read so far. -/
def digits? (base : Nat) : Nat → List Char → Option Nat
  | value, [] => some value
  | value, c :: rest => (digit? base c).bind fun d => digits? base (base * value + d) rest

/-- One optional plus sign, then at least one digit and nothing else. Leading zeros are free; the
value has to stay below `limit`. -/
def parse? (base limit : Nat) (text : List Char) : Option Nat :=
  let digits := match text with
    | '+' :: rest => rest
    | _ => text
  if digits.isEmpty then none else (digits? base 0 digits).filter (· < limit)

/-- A decimal numeral with an optional sign of either kind. -/
def parseSigned? : List Char → Option Int
  | '-' :: rest => match rest with
    | '+' :: _ => none
    | _ => (parse? 10 0x8000000000000001 rest).map fun n => -Int.ofNat n
  | text => (parse? 10 0x8000000000000000 text).map Int.ofNat

/-! ## Printing numerals -/

/-- Upper-case hexadecimal digits, at least one and at least `width` of them. -/
def hex (width n : Nat) : String :=
  let digits := (Nat.toDigits 16 n).map Char.toUpper
  String.ofList (List.replicate (width - digits.length) '0' ++ digits)

/-- Hexadecimal digits behind `0x`. -/
def prefixedHex (width n : Nat) : String := "0x" ++ hex width n

end Numeral

end ChunkArchive
