import ChunkArchive.Chunk.Forest

/-!
# Chunk tables and data blocks

The table holds the headers of a forest in the order of the walk. The payloads lie in the data
blocks, each at the offset that its header gives. Parsing a table takes the payloads from the
blocks; writing a forest gives a table and blocks of its own.
-/

set_option autoImplicit false

namespace ChunkArchive

/-! ## Parsing -/

/-- The header at `pos`. -/
def Header.at (table : Bytes) (pos : Nat) : Except Error Header :=
  match Header.read? (table.drop pos) with
  | some h => .ok h
  | none => .error (.table pos (.headerCut table.length))

/-- The payload of the leaf whose header stands at `pos`. -/
def Header.payload (blocks : List Bytes) (pos : Nat) (h : Header) : Except Error Bytes :=
  match blocks[h.blockIndex]? with
  | none => .error (.table pos (.missingBlock h.blockIndex))
  | some block =>
    match Bytes.slice? block h.offset.toNat h.stop with
    | some payload => .ok payload
    | none =>
      .error (.table pos (.payloadOutside h.offset.toNat h.stop h.blockIndex block.length))

namespace Node

/-- Reads chunks from `pos` up to `stop`, which is the end of the chunk at `parent`. A chunk takes
at least one byte, so that `stop - pos` bounds their number. -/
def parseRun (child : Nat → Except Error (Node × Nat)) (parent stop : Nat) :
    (bound pos : Nat) → Except Error (List Node)
  | 0, _ => .ok []
  | bound + 1, pos =>
    if stop ≤ pos then .ok []
    else if stop - pos < Header.length then .error (.table pos (.ragged (stop - pos)))
    else do
      let (node, length) ← child pos
      if stop < pos + length then .error (.table parent .childOverrun)
      let others ← parseRun child parent stop bound (pos + length)
      return node :: others

/-- Reads the chunk whose header stands at `pos`, with at most `levels` levels from it downwards.
Gives the chunk and the bytes it takes in the table. -/
def parseWithin (table : Bytes) (blocks : List Bytes) :
    (levels pos : Nat) → Except Error (Node × Nat)
  | 0, pos => .error (.table pos .tooDeep)
  | levels + 1, pos => do
    let h ← Header.at table pos
    if h.hasChildren then
      let start := pos + Header.length
      let stop := start + h.size.toNat
      -- the whole run has to lie in the table before any chunk of it is read
      if table.length < stop then .error (.table pos (.runPastEnd stop table.length))
      let children ←
        parseRun (parseWithin table blocks levels) pos stop (stop - start) start
      return (.branch h children, Header.length + h.size.toNat)
    else
      let payload ← h.payload blocks pos
      return (.leaf h payload, Header.length)

def parse (table : Bytes) (blocks : List Bytes) (pos : Nat) : Except Error (Node × Nat) :=
  parseWithin table blocks (maxDepth + 1) pos

end Node

namespace Forest

/-- Reads roots from `pos` on. Fewer bytes at the end than a header takes have to be zero. -/
def parseFrom (table : Bytes) (blocks : List Bytes) :
    (bound pos : Nat) → Except Error (List Node)
  | 0, _ => .ok []
  | bound + 1, pos =>
    let rest := table.drop pos
    if rest.length < Header.length then
      if rest.all (· = 0) then .ok [] else .error (.table pos (.trailing rest.length))
    else do
      let (root, length) ← Node.parse table blocks pos
      let others ← parseFrom table blocks bound (pos + length)
      return root :: others

def parse (table : Bytes) (blocks : List Bytes) : Except Error Forest := do
  let roots ← parseFrom table blocks (table.length + 1) 0
  return ⟨roots⟩

end Forest

/-! ## Writing -/

namespace Node

mutual

/-- The header with the size that the body has, and those of the chunks inside. -/
def tableBytes : Node → Bytes
  | .leaf h payload => { h with size := UInt32.ofNat payload.length }.bytes
  | .branch h cs => { h with size := UInt32.ofNat (tableLengths cs) }.bytes ++ tableBytesOf cs

def tableBytesOf : List Node → Bytes
  | [] => []
  | n :: ns => tableBytes n ++ tableBytesOf ns

end

end Node

namespace Forest

def table (forest : Forest) : Bytes := Node.tableBytesOf forest.roots

/-- Writes the payload of a leaf into its block; missing blocks are added empty. -/
def place (blocks : List Bytes) (node : Node) : List Bytes :=
  match node with
  | .branch _ _ => blocks
  | .leaf h payload =>
    let padded := blocks ++ List.replicate (h.blockIndex + 1 - blocks.length) []
    padded.modify h.blockIndex fun block => Bytes.overwrite block h.offset.toNat payload

/-- At least `count` blocks that hold every payload at its offset, in the order of the walk, with
zeros in between. -/
def layOut (forest : Forest) (count : Nat) : List Bytes :=
  (forest.walk.map Prod.snd).foldl place (List.replicate count [])

end Forest

end ChunkArchive
