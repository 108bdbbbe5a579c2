import ChunkArchive.Error
import ChunkArchive.Text.Basic

/-!
# Paths to chunks

A path leads to a chunk of a forest: the position of a root, then at every level the position of a
chunk inside the one before. It is written with slashes between the positions.
-/

set_option autoImplicit false

namespace ChunkArchive

structure Path where
  root : Nat
  steps : List Nat
  deriving DecidableEq, Repr, Inhabited

namespace Path

def ofRoot (root : Nat) : Path := ⟨root, []⟩

def child (path : Path) (index : Nat) : Path := ⟨path.root, path.steps ++ [index]⟩

/-- The path to the chunk around this one, if it is no root. -/
def parent? (path : Path) : Option Path :=
  if path.steps.isEmpty then none else some ⟨path.root, path.steps.dropLast⟩

def depth (path : Path) : Nat := path.steps.length

def positions (path : Path) : List Nat := path.root :: path.steps

/-- Paths are ordered as their positions are, from the left. A chunk comes before those inside it. -/
instance : LT Path := ⟨fun p q => p.positions < q.positions⟩

instance (p q : Path) : Decidable (p < q) := inferInstanceAs (Decidable (p.positions < q.positions))

/-! ## Text -/

def toText (path : Path) : String :=
  String.ofList (['/'].intercalate (path.positions.map (Nat.toDigits 10)))

instance : ToString Path := ⟨toText⟩

/-- The limit below which every position has to stay. -/
def positionLimit : Nat := 0x10000000000000000

/-- Reads positions with slashes between them, with blanks around the whole. -/
def parse (text : String) : Except Error Path :=
  match ((Text.trim text.toList).splitOn '/').mapM (Numeral.parse? 10 positionLimit) with
  | some (root :: steps) => .ok ⟨root, steps⟩
  | _ => .error (.format (.pathText text))

end Path

end ChunkArchive
