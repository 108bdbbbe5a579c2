import ChunkArchive.Bytes
import ChunkArchive.Error
import ChunkArchive.Text.Basic

/-!
# Files

Where commands read and write files, either the files of the system or a map from places to bytes
in which paths are followed step by step, and how the path of a data file is formed.
-/

set_option autoImplicit false

namespace ChunkArchive

/-- A place with files, in a monad in which they can be read and written. -/
structure Disk (m : Type → Type) where
  read : String → m (Except FileFault Bytes)
  write : String → Bytes → m (Except FileFault Unit)

/-! ## Places -/

/-- Where the way to a place begins: in the working directory, so many levels above its parent, or
at the top. -/
inductive Origin where
  | here
  | above (levels : Nat)
  | top
  deriving DecidableEq, Repr

/-- A place for a file or a directory: the names on the way down to it, the last one first. -/
structure Place where
  origin : Origin
  names : List (List Char)
  deriving DecidableEq, Repr

namespace Place

/-- The directory that a place is in. The top is in itself. -/
def parent : Place → Place
  | ⟨origin, _ :: names⟩ => ⟨origin, names⟩
  | ⟨.here, []⟩ => ⟨.above 0, []⟩
  | ⟨.above levels, []⟩ => ⟨.above (levels + 1), []⟩
  | ⟨.top, []⟩ => ⟨.top, []⟩

def child (p : Place) (name : List Char) : Place := ⟨p.origin, name :: p.names⟩

/-- Whether the way to `q` leads through `p` and on. -/
def isAbove (p q : Place) : Bool := p.origin = q.origin && p.names.isSuffixOf (q.names.drop 1)

/-- The place of a file below the working directory. -/
def ofName (name : String) : Place := ⟨.here, (name.toList.splitOn '/').reverse⟩

/-- The name of a file below the working directory. -/
def toName? : Place → Option String
  | ⟨.here, names⟩ => some (String.ofList (['/'].intercalate names.reverse))
  | _ => none

end Place

/-- Where the way of a path begins. -/
def originOf (path : String) : Place :=
  if path.toList.head? = some '/' then ⟨.top, []⟩ else ⟨.here, []⟩

/-- The steps of a path. An empty step stays where it is, as one of a single dot does. -/
def stepsOf (path : String) : List (List Char) := path.toList.splitOn '/'

/-- The steps to the place where a path can be written. A slash at the end says that the path is one
of a directory, be it there or not: the name before it gives way to an empty step. -/
def stepsToWrite (path : String) : List (List Char) :=
  match (stepsOf path).reverse with
  | [] :: steps => ([] :: (steps.dropWhile (· = [])).drop 1).reverse
  | steps => steps.reverse

/-- The most bytes of a name, and of a path. -/
def maxNameSize : Nat := 255
def maxPathSize : Nat := 4095

/-! ## A map from places to bytes -/

structure Files where
  entries : List (Place × Bytes)
  deriving DecidableEq, Repr

namespace Files

/-- Files below the working directory, by name. -/
def ofList (files : List (String × Bytes)) : Files :=
  ⟨files.map fun (name, bytes) => (.ofName name, bytes)⟩

/-- The files below the working directory with their names. -/
def toList (files : Files) : List (String × Bytes) :=
  files.entries.filterMap fun (p, bytes) => p.toName?.map fun name => (name, bytes)

def get? (files : Files) (p : Place) : Option Bytes := files.entries.lookup p

/-- Directories are the places above a file, and those where a way begins. -/
def isDirectory (files : Files) (p : Place) : Bool :=
  p.names = [] || files.entries.any fun (q, _) => p.isAbove q

/-- One step on a way. Only directories can be left, in either direction. -/
def enter (files : Files) (p : Place) (step : List Char) : Except FileFault Place :=
  if !files.isDirectory p then
    .error (if (files.get? p).isSome then .notADirectory else .notFound)
  else if step = [] || step = ['.'] then .ok p
  else if step = ['.', '.'] then .ok p.parent
  else if maxNameSize < (String.ofList step).utf8ByteSize then .error .nameTooLong
  else .ok (p.child step)

/-- The place at the end of some steps of a path. There need not be anything. -/
def follow (files : Files) (path : String) (steps : List (List Char)) : Except FileFault Place :=
  if path.isEmpty then .error .notFound
  else if maxPathSize < path.utf8ByteSize then .error .nameTooLong
  else steps.foldlM files.enter (originOf path)

def read (files : Files) (path : String) : Except FileFault Bytes := do
  let p ← files.follow path (stepsOf path)
  match files.get? p with
  | some bytes => .ok bytes
  | none => .error (if files.isDirectory p then .isADirectory else .notFound)

/-- Puts bytes at a place, instead of those that may be there. -/
def insert (files : Files) (p : Place) (bytes : Bytes) : Files :=
  ⟨(p, bytes) :: files.entries.filter fun (q, _) => q ≠ p⟩

/-- Where a file can be written. Its directory has to be there, the file itself need not be. -/
def target (files : Files) (path : String) : Except FileFault Place := do
  let p ← files.follow path (stepsToWrite path)
  if files.isDirectory p then .error .isADirectory
  return p

def write (files : Files) (path : String) (bytes : Bytes) : Except FileFault Files := do
  return files.insert (← files.target path) bytes

def disk : Disk (StateM Files) where
  read path := fun files => (files.read path, files)
  write path bytes := fun files =>
    match files.write path bytes with
    | .ok files => (.ok (), files)
    | .error fault => (.error fault, files)

end Files

/-! ## The data file of a dictionary -/

/-- Drops slashes and steps that stay where they are from the end of a path, which comes first. -/
def dropIdleSteps : List Char → List Char
  | '/' :: rest => dropIdleSteps rest
  | '.' :: '/' :: rest => dropIdleSteps rest
  | rest => rest

/-- Replaces the extension of the last step of a path, or adds one. A dot at the front of the step
begins no extension. Paths without a name at their end stay as they are. A step of two dots and more
text without a dot gets no extension either: what is left of it is the step up. -/
def withExtension (path extension : String) : String :=
  let reversed := dropIdleSteps path.toList.reverse
  let name := (reversed.takeWhile (· ≠ '/')).reverse
  if name = [] || name = ['.'] || name = ['.', '.'] then path
  else
    let directory := (reversed.dropWhile (· ≠ '/')).reverse
    let stem := (name.reverse.dropWhile (· ≠ '.')).drop 1
    let stem := if stem.isEmpty then name else stem.reverse
    if stem = ['.'] then String.ofList (directory ++ ['.', '.'])
    else String.ofList (directory ++ stem ++ '.' :: extension.toList)

/-- The data file that goes with a dictionary. -/
def dataPath (dictionary : String) : String := withExtension dictionary "data"

end ChunkArchive
