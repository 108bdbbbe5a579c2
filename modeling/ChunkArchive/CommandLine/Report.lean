import ChunkArchive.Archive.Basic
import ChunkArchive.Script.Export

/-!
# Reports

What the commands print about an archive.
-/

set_option autoImplicit false

namespace ChunkArchive

/-- Every chunk with script data directly inside it, decompiled. Each module succeeds or fails on
its own. -/
def Archive.scriptModules (a : Archive) (names : NameTable) : List (Path × Except Error ScriptModule) :=
  let modules := a.forest.walk.filter fun (_, node) => (node.child? ChunkType.scriptData).isSome
  modules.map fun (path, node) => (path, ScriptModule.decompile names node)

namespace CommandLine

def textOfLines (lines : List String) : String := String.join (lines.map fun line => line ++ "\n")

/-- Sets a text to the right of a column. -/
def column (width : Nat) (text : String) : String :=
  String.ofList (List.replicate (width - text.length) ' ') ++ text

/-! ## Sizes -/

/-- A quotient with one place, a half going to the even neighbour. -/
def tenths (n unit : Nat) : String :=
  let whole := 10 * n / unit
  let rest := 2 * (10 * n % unit)
  let rounded := if unit < rest || (rest = unit && whole % 2 = 1) then whole + 1 else whole
  s!"{rounded / 10}.{rounded % 10}"

def sizeText (bytes : Nat) : String :=
  if 0x100000 ≤ bytes then tenths bytes 0x100000 ++ "M"
  else if 0x400 ≤ bytes then tenths bytes 0x400 ++ "K"
  else toString bytes

/-! ## The dictionary -/

def blockLine (compressed : Bool) (index : Nat) (b : Block) : String :=
  let d := b.descriptor
  let cells := [column 5 (toString index), column 10 (Numeral.prefixedHex 1 d.offset.toNat),
    column 10 (sizeText d.unpackedSize.toNat),
    column 10 (sizeText (d.storedSize compressed).toNat), column 5 (toString d.usage.toNat)]
  "  ".intercalate (if b.damage.isSome then cells ++ ["corrupt"] else cells)

def infoLines (source : String) (a : Archive) : List String :=
  let d := a.dictionary
  let names := if d.names.isEmpty then [] else ["Names: " ++ ", ".intercalate d.names]
  let total := (d.blocks.map fun b => b.unpackedSize.toNat).foldl (· + ·) 0
  let stored := (d.blocks.map fun b => (b.storedSize d.isCompressed).toNat).foldl (· + ·) 0
  ["Archive: " ++ source, "", s!"Version: {d.version}",
      "Compressed: " ++ (if d.isCompressed then "yes" else "no"),
      "Largest block: " ++ sizeText d.largestBlock.toNat,
      s!"Table references: {d.tableReferenceCount}"]
    ++ names
    ++ [s!"Chunks: {a.forest.nodeCount}", "",
      "  ".intercalate [column 5 "BLOCK", column 10 "OFFSET", column 10 "SIZE",
        column 10 "STORED", column 5 "USAGE"]]
    ++ a.blocks.zipIdx.map (fun (b, index) => blockLine d.isCompressed index b)
    ++ ["", s!"{d.blocks.length} blocks, {sizeText total} total ({sizeText stored} stored)"]

/-! ## The forest -/

/-- The type that a text names: by a name of the registry, or in hexadecimal digits. -/
def typeOfText? (text : String) : Option UInt16 :=
  let rec dropMark (mark : Char) : List Char → List Char
    | '0' :: x :: rest => if x = mark then dropMark mark rest else '0' :: x :: rest
    | rest => rest
  (ChunkType.ofName? text).or
    ((Numeral.parse? 16 0x10000 (dropMark 'X' (dropMark 'x' text.toList))).map UInt16.ofNat)

def nodeLine (indent : Nat) (path : Path) (node : Node) : String :=
  let h := node.header
  let place :=
    if h.hasChildren then [s!"children={node.children.length}"]
    else [s!"block={1 + h.blockIndex}", s!"align={h.alignment}",
      "offset=" ++ Numeral.prefixedHex 1 h.offset.toNat, s!"size={h.size}"]
  String.ofList (List.replicate indent ' ') ++ "  ".intercalate
    ([path.toText, ChunkType.label h.typeId, "flags=" ++ Numeral.prefixedHex 4 h.flags.toNat]
      ++ place)

/-- One line for every chunk, or for those of one type. -/
def treeLines (type : Option UInt16) (forest : Forest) : List String :=
  match type with
  | none => forest.walk.map fun (path, node) => nodeLine (2 * path.depth) path node
  | some id =>
    (forest.walk.filter fun (_, node) => node.header.typeId = id).map
      fun (path, node) => nodeLine 0 path node

/-! ## Scripts -/

def moduleText (names : NameTable) (path : Path) (m : Except Error ScriptModule) : String :=
  s!"// chunk {path}\n"
    ++ (match m with
      | .ok m => m.pseudocode names
      | .error e => s!"// failed to decompile: {e.message}\n")
    ++ "\n"

def moduleJson (path : Path) (m : Except Error ScriptModule) : Json :=
  .object [("path", .string path.toText), match m with
    | .ok m => ("module", m.json)
    | .error e => ("error", .string e.message)]

/-- All script modules of an archive, as pseudo-code or as JSON. -/
def scriptsText (names : NameTable) (json : Bool) (a : Archive) : String :=
  let modules := a.scriptModules names
  if json then (Json.array (modules.map fun (path, m) => moduleJson path m)).pretty
  else String.join (modules.map fun (path, m) => moduleText names path m)

end CommandLine

end ChunkArchive
