import ChunkArchive.Codec
import ChunkArchive.Text.Basic

/-!
# Arguments

What the words of a command line ask for. Options may stand anywhere, also between the positional
arguments; behind `--` everything is positional. An option that takes a value has it in the same
word, behind an equals sign or right behind its letter, or in the next word, which then does not
begin with a hyphen.
-/

set_option autoImplicit false

namespace ChunkArchive.CommandLine

/-! ## What can be asked for -/

inductive Request where
  | info (source : String) (data : Option String)
  | tree (source : String) (data : Option String) (type : Option String)
  | decompile (source : String) (data : Option String) (json : Bool) (output : Option String)
  | patch (source destination chunk payload : String) (data : Option String)
  | compress (source destination : String) (data : Option String) (level : Nat)
  | decompress (source destination : String) (data : Option String)
  deriving DecidableEq, Repr

structure Invocation where
  hashes : Option String
  request : Request
  deriving DecidableEq, Repr

inductive Arguments where
  | run (invocation : Invocation)
  | version
  | help
  | invalid
  deriving DecidableEq, Repr

/-! ## Options and subcommands -/

/-- What the value of an option has to be. -/
inductive ValueKind where
  | path
  | text
  | level
  deriving DecidableEq, Repr

structure OptionForm where
  long : String
  short : Option Char := none
  /-- A switch has none. -/
  value : Option ValueKind := none
  repeats : Bool := false
  deriving DecidableEq, Repr

/-- The options that every subcommand has, and that may also stand before it. -/
def globalOptions : List OptionForm := [
  { long := "hashes", value := some .path },
  { long := "verbose", short := some 'v', repeats := true },
  { long := "help", short := some 'h' }]

def versionOption : OptionForm := { long := "version", short := some 'V' }

def dataOption : OptionForm := { long := "data", value := some .path }

/-- A subcommand takes one or two paths, and options of its own. -/
structure Form where
  name : String
  paths : Nat
  options : List OptionForm

def forms : List Form := [
  { name := "info", paths := 1, options := [dataOption] },
  { name := "tree", paths := 1,
    options := [dataOption, { long := "type", short := some 't', value := some .text }] },
  { name := "decompile", paths := 1,
    options := [dataOption, { long := "json" },
      { long := "output", short := some 'o', value := some .path }] },
  { name := "patch", paths := 2,
    options := [dataOption, { long := "chunk", short := some 'c', value := some .text },
      { long := "payload", short := some 'p', value := some .path }] },
  { name := "compress", paths := 2,
    options := [dataOption, { long := "level", short := some 'l', value := some .level }] },
  { name := "decompress", paths := 2, options := [dataOption] }]

/-! ## Values -/

/-- A level is a number of 32 bits; a sign may stand before it. -/
def level? (text : String) : Option Nat :=
  match Numeral.parseSigned? text.toList with
  | some (.ofNat n) => if n < 0x100000000 then some n else none
  | _ => none

def ValueKind.admits : ValueKind → String → Bool
  | .path, value => !value.isEmpty
  | .text, _ => true
  | .level, value => (level? value).isSome

/-! ## Scanning -/

structure Scan where
  /-- The options that have been met, by their long names. -/
  options : List (String × String) := []
  positional : List String := []

namespace Scan

def option? (s : Scan) (long : String) : Option String := s.options.lookup long

/-- Takes in an option. Most may be given only once. -/
def add (s : Scan) (form : OptionForm) (value : String) : Except Arguments Scan :=
  if form.long = "help" then .error .help
  else if form.long = "version" then .error .version
  else if (s.option? form.long).isSome && !form.repeats then .error .invalid
  else if (form.value.map fun kind => kind.admits value).getD true then
    .ok { s with options := s.options ++ [(form.long, value)] }
  else .error .invalid

/-- Takes in a row of letters behind a hyphen: switches, then perhaps an option with its value. If
the value is still to come, the option is given back. -/
def addLetters (forms : List OptionForm) (s : Scan) :
    List Char → Except Arguments (Scan × Option OptionForm)
  | [] => .ok (s, none)
  | letter :: rest =>
    match forms.find? (·.short = some letter) with
    | none => .error .invalid
    | some form =>
      if form.value.isNone then do addLetters forms (← s.add form "") rest
      else match rest with
        | [] => .ok (s, some form)
        | '=' :: value => do return (← s.add form (String.ofList value), none)
        | value => do return (← s.add form (String.ofList value), none)

/-- Takes in a word that begins with two hyphens, which are left out here. -/
def addLong (forms : List OptionForm) (s : Scan) (word : List Char) :
    Except Arguments (Scan × Option OptionForm) :=
  let name := String.ofList (word.takeWhile (· ≠ '='))
  match forms.find? (·.long = name), word.dropWhile (· ≠ '=') with
  | none, _ => .error .invalid
  | some form, [] =>
    if form.value.isSome then .ok (s, some form) else do return (← s.add form "", none)
  | some form, _ :: value =>
    if form.value.isSome then do return (← s.add form (String.ofList value), none)
    else .error .invalid

/-- Takes in words up to the end, or up to and with the first positional one if `paths` is zero.
Gives the words that are left. -/
def words (forms : List OptionForm) (paths : Nat) (s : Scan) (awaited : Option OptionForm) :
    List String → Except Arguments (Scan × List String)
  | [] => if awaited.isSome then .error .invalid else .ok (s, [])
  | word :: rest =>
    match word.toList, awaited with
    | '-' :: '-' :: [], none =>
      if paths < s.positional.length + rest.length || rest.any (·.isEmpty) then .error .invalid
      else .ok ({ s with positional := s.positional ++ rest }, [])
    | '-' :: '-' :: letters, none => do
      let (s, awaited) ← s.addLong forms letters
      words forms paths s awaited rest
    | '-' :: letter :: letters, none => do
      let (s, awaited) ← s.addLetters forms (letter :: letters)
      words forms paths s awaited rest
    | '-' :: _ :: _, some _ => .error .invalid
    | _, some form => do words forms paths (← s.add form word) none rest
    | _, none =>
      if paths = 0 then .ok ({ s with positional := [word] }, rest)
      else if paths ≤ s.positional.length || word.isEmpty then .error .invalid
      else words forms paths { s with positional := s.positional ++ [word] } none rest

end Scan

/-! ## Requests -/

/-- The request for a subcommand, if nothing that it needs is missing. -/
def request? (name : String) (s : Scan) : Option Request :=
  let data := s.option? "data"
  match name, s.positional with
  | "info", [source] => some (.info source data)
  | "tree", [source] => some (.tree source data (s.option? "type"))
  | "decompile", [source] =>
    some (.decompile source data (s.option? "json").isSome (s.option? "output"))
  | "patch", [source, destination] => do
    return .patch source destination (← s.option? "chunk") (← s.option? "payload") data
  | "compress", [source, destination] =>
    let level := ((s.option? "level").bind level?).getD Codec.defaultLevel
    some (.compress source destination data level)
  | "decompress", [source, destination] => some (.decompress source destination data)
  | _, _ => none

/-- Help on a subcommand, or on all of them. -/
def help : List String → Arguments
  | [] => .help
  | [name] => if name = "help" || forms.any (·.name = name) then .help else .invalid
  | _ => .invalid

def parseSubcommand (outer : Scan) (name : String) (rest : List String) :
    Except Arguments Arguments := do
  if name = "help" then return help rest
  match forms.find? (·.name = name) with
  | none => return .invalid
  | some form =>
    let (inner, _) ← Scan.words (form.options ++ globalOptions) form.paths {} none rest
    match request? name inner with
    | none => return .invalid
    | some request =>
      return .run { hashes := (inner.option? "hashes").or (outer.option? "hashes"), request }

def parse (arguments : List String) : Arguments :=
  let parsed : Except Arguments Arguments := do
    let (outer, rest) ← Scan.words (versionOption :: globalOptions) 0 {} none arguments
    match outer.positional with
    | [name] => parseSubcommand outer name rest
    | _ => return .invalid
  match parsed with
  | .ok result | .error result => result

end ChunkArchive.CommandLine
