import ChunkArchive.Archive.Edit
import ChunkArchive.Archive.Storage
import ChunkArchive.CommandLine.Arguments
import ChunkArchive.CommandLine.Disk
import ChunkArchive.CommandLine.Report

/-!
# Running commands

What each command reads, prints and writes, on whatever disk it runs.
-/

set_option autoImplicit false

namespace ChunkArchive.CommandLine

/-! ## Failures -/

inductive Failure where
  | library (e : Error)
  | names (path : String) (e : Error)
  | payload (path : String) (fault : FileFault)
  | output (path : String) (fault : FileFault)
  | unknownType (text : String)
  deriving DecidableEq, Repr

/-- The messages of an error and of what caused it. -/
def errorChain : Error → List String
  | .file fault => [(Error.file fault).message, fault.message]
  | e => [e.message]

def Failure.chain : Failure → List String
  | .library e => errorChain e
  | .names path e => s!"Failed to load hash names from {path}" :: errorChain e
  | .payload path fault => [s!"Failed to read {path}", fault.message]
  | .output path fault => [s!"Failed to write {path}", fault.message]
  | .unknownType text => [s!"Unknown chunk type '{text}'"]

def Failure.message (f : Failure) : String := ": ".intercalate f.chain

/-! ## Commands -/

section

variable {m : Type → Type} [Monad m]

abbrev Run (m : Type → Type) := ExceptT Failure m

def attempt {α : Type} (failure : Error → Failure) (result : Except Error α) : Run m α :=
  ExceptT.mk (pure (result.mapError failure))

def readFile (disk : Disk m) (failure : FileFault → Failure) (path : String) : Run m Bytes :=
  ExceptT.mk do return (← disk.read path).mapError failure

def writeFile (disk : Disk m) (failure : FileFault → Failure) (path : String) (bytes : Bytes) :
    Run m Unit :=
  ExceptT.mk do return (← disk.write path bytes).mapError failure

def ofFault (fault : FileFault) : Failure := .library (.file fault)

/-- The names from a file; none if no file is given. -/
def readNames (disk : Disk m) : Option String → Run m NameTable
  | none => return .empty
  | some path => do
    let bytes ← readFile disk (fun fault => .names path (.file fault)) path
    match Utf8.decode bytes with
    | .ok text => return .parse text
    | .error _ => throw (.names path (.file .notUtf8))

/-- Reads the two files of an archive, the dictionary first. -/
def readArchive (disk : Disk m) (codec : Codec) (source : String) (data : Option String) :
    Run m Archive := do
  let dictionary ← readFile disk ofFault source
  let data ← readFile disk ofFault (data.getD (dataPath source))
  attempt .library (Archive.load codec false { dictionary, data })

/-- Writes the two files of an archive, the dictionary first. -/
def writeArchive (disk : Disk m) (codec : Codec) (level : Nat) (destination : String)
    (a : Archive) : Run m Unit := do
  let pair ← attempt .library (a.save codec level)
  writeFile disk ofFault destination pair.dictionary
  writeFile disk ofFault (dataPath destination) pair.data

/-- Carries out a request. The result is what is printed. -/
def perform (disk : Disk m) (codec : Codec) (names : NameTable) : Request → Run m String
  | .info source data => do
    let a ← readArchive disk codec source data
    return textOfLines (infoLines source a)
  | .tree source data type => do
    let a ← readArchive disk codec source data
    match type.map fun text => (text, typeOfText? text) with
    | some (text, none) => throw (.unknownType text)
    | some (_, some id) => return textOfLines (treeLines (some id) a.forest)
    | none => return textOfLines (treeLines none a.forest)
  | .decompile source data json output => do
    let a ← readArchive disk codec source data
    let text := scriptsText names json a
    match output with
    | none => return text
    | some path =>
      writeFile disk (.output path) path (Utf8.encode text)
      return ""
  | .patch source destination chunk payload data => do
    let path ← attempt .library (Path.parse chunk)
    let bytes ← readFile disk (.payload payload) payload
    let a ← readArchive disk codec source data
    let edited ← attempt .library (a.setPayload path bytes)
    writeArchive disk codec Codec.defaultLevel destination edited
    return ""
  | .compress source destination data level => do
    let a ← readArchive disk codec source data
    writeArchive disk codec level destination (a.setCompressed true)
    return ""
  | .decompress source destination data => do
    let a ← readArchive disk codec source data
    writeArchive disk codec Codec.defaultLevel destination (a.setCompressed false)
    return ""

def runInvocation (disk : Disk m) (codec : Codec) (i : Invocation) : Run m String := do
  let names ← readNames disk i.hashes
  perform disk codec names i.request

/-! ## The program -/

/-- How a run ends: its exit code, what it has printed, and the failure if there was one. -/
structure Result where
  exitCode : UInt32
  output : String
  failure : Option Failure
  deriving DecidableEq, Repr

def versionText : String := "nextlevel 0.1.0\n"

def helpText : String :=
  "usage: [--hashes FILE] info|tree|decompile|patch|compress|decompress SOURCE ...\n"

def run (disk : Disk m) (codec : Codec) (arguments : List String) : m Result := do
  match parse arguments with
  | .invalid => return ⟨2, "", none⟩
  | .help => return ⟨0, helpText, none⟩
  | .version => return ⟨0, versionText, none⟩
  | .run invocation =>
    match ← (runInvocation disk codec invocation).run with
    | .ok output => return ⟨0, output, none⟩
    | .error failure => return ⟨1, "", some failure⟩

end

end ChunkArchive.CommandLine
