import ChunkArchive.Main
import ChunkArchive.Archive.InPlace
import ChunkArchive.Script.InPlace
import ChunkArchive.Codec.Decoder
import ChunkArchive.Script.Assembly
import ChunkArchive.Script.Patch
import ChunkArchive.Proofs.Bytes
import ChunkArchive.Proofs.Lists
import ChunkArchive.Proofs.Chunk.Grammar
import ChunkArchive.Proofs.Chunk.LayOut
import ChunkArchive.Proofs.Chunk.Place
import ChunkArchive.Proofs.Codec
import ChunkArchive.Proofs.Dictionary.RoundTrip
import ChunkArchive.Proofs.Dictionary.Normal
import ChunkArchive.Proofs.Dictionary.Cut
import ChunkArchive.Proofs.Archive.Reopen
import ChunkArchive.Proofs.Archive.Repack
import ChunkArchive.Proofs.Archive.Coherence
import ChunkArchive.Proofs.Archive.Edits
import ChunkArchive.Proofs.Archive.EmptyLeaf
import ChunkArchive.Proofs.Archive.Overlap
import ChunkArchive.Proofs.Archive.Changes
import ChunkArchive.Proofs.Archive.InPlace
import ChunkArchive.Proofs.Archive.Damage
import ChunkArchive.Proofs.Script.Listing
import ChunkArchive.Proofs.Script.Relocation
import ChunkArchive.Proofs.Script.Container
import ChunkArchive.Proofs.Script.Reassembly
import ChunkArchive.Proofs.Script.Lossless
import ChunkArchive.Proofs.Script.Outline
import ChunkArchive.Proofs.Script.Shape
import ChunkArchive.Proofs.Script.Patch
import ChunkArchive.Proofs.Script.PatchedModule
import ChunkArchive.Proofs.Script.Sources
import ChunkArchive.Proofs.Script.PatchedPool
import ChunkArchive.Proofs.Archive.Confinement
import ChunkArchive.Proofs.Archive.Commute
import ChunkArchive.Proofs.Archive.Gaps
import ChunkArchive.Proofs.Archive.Limits
import ChunkArchive.Proofs.Archive.Placement
import ChunkArchive.Proofs.Archive.Undo
import ChunkArchive.Proofs.Archive.Spared
import ChunkArchive.Proofs.Archive.Tiling
import ChunkArchive.Proofs.Archive.Strictness
import ChunkArchive.Proofs.Script.Tiled
import ChunkArchive.Proofs.Script.Window
import ChunkArchive.Proofs.Script.Provenance
import ChunkArchive.Proofs.Script.FirstStores
import ChunkArchive.Proofs.Script.PatchInPlace
import ChunkArchive.Proofs.Script.PoolInPlace
import ChunkArchive.Proofs.Script.Strings
import ChunkArchive.Proofs.Text.Numeral
import ChunkArchive.Proofs.Text.Pieces
import ChunkArchive.Proofs.Text.Line
import ChunkArchive.Proofs.NameTable
import ChunkArchive.Proofs.Chunk.Path
import ChunkArchive.Proofs.Script.Pseudocode
import ChunkArchive.Proofs.CommandLine.Disk
import ChunkArchive.Proofs.CommandLine.Saving
