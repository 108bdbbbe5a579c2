import ChunkArchive.Text.Basic
import ChunkArchive.Text.Utf8

/-!
# Errors

Everything that can go wrong, by cause, and the one text that each cause is reported with.
-/

set_option autoImplicit false

namespace ChunkArchive

open Numeral

/-! ## Causes by subject -/

/-- What went wrong with a file, or with a read of fixed size. -/
inductive FileFault where
  | shortRead
  | notFound
  | notADirectory
  | isADirectory
  | nameTooLong
  | notUtf8
  | other (text : String)
  deriving Repr, DecidableEq

def FileFault.message : FileFault → String
  | .shortRead => "failed to fill whole buffer"
  | .notFound => "No such file or directory (os error 2)"
  | .notADirectory => "Not a directory (os error 20)"
  | .isADirectory => "Is a directory (os error 21)"
  | .nameTooLong => "File name too long (os error 36)"
  | .notUtf8 => "stream did not contain valid UTF-8"
  | .other text => text

/-- Why a packed block could not be unpacked. -/
inductive Damage where
  | corrupt
  | incomplete
  | wrongLength (actual expected : Nat)
  deriving Repr, DecidableEq

def Damage.message : Damage → String
  | .corrupt => "inflate failed: corrupt deflate stream"
  | .incomplete => "inflate failed: incomplete deflate stream"
  | .wrongLength actual expected => s!"inflated to {actual} bytes, expected {expected}"

/-- Containers nested deeper than this are refused. -/
def maxDepth : Nat := 64

/-- Why a chunk table could not be read. -/
inductive TableFault where
  | tooDeep
  | headerCut (tableLength : Nat)
  | trailing (count : Nat)
  | runPastEnd (stop tableLength : Nat)
  | ragged (count : Nat)
  | childOverrun
  | missingBlock (block : Nat)
  | payloadOutside (start stop block blockLength : Nat)
  deriving Repr, DecidableEq

def TableFault.message : TableFault → String
  | .tooDeep => s!"containers nested deeper than {maxDepth}"
  | .headerCut tableLength => s!"header runs past the end of the table ({tableLength} bytes)"
  | .trailing count => s!"{count} trailing bytes do not form a header"
  | .runPastEnd stop tableLength =>
    s!"child headers end at {prefixedHex 1 stop}, past the table end {prefixedHex 1 tableLength}"
  | .ragged count => s!"{count} bytes left in the child run"
  | .childOverrun => "child overruns its parent's header run"
  | .missingBlock block => s!"payload lives in missing data block {block}"
  | .payloadOutside start stop block blockLength =>
    s!"payload {prefixedHex 1 start}..{prefixedHex 1 stop} lies outside data block {block} "
      ++ s!"({blockLength} bytes)"

/-- The chunks that a script module can not do without. -/
inductive ModulePart where
  | header
  | data
  | functionTable
  deriving Repr, DecidableEq

def ModulePart.name : ModulePart → String
  | .header => "ScriptHeader"
  | .data => "ScriptData"
  | .functionTable => "ScriptFunctionTable"

/-- Why a variable can not be given another value. -/
inductive PatchFault where
  | noVariable
  | kindMismatch (given stored : String)
  | notInPool
  | componentCount
  | inlineLiteral (component : Nat)
  deriving Repr, DecidableEq

def PatchFault.message : PatchFault → String
  | .noVariable => "no variable at this offset"
  | .kindMismatch given stored => s!"cannot store {given} in a {stored} variable"
  | .notInPool => "only pool-backed values can be patched"
  | .componentCount => "component count does not match its sources"
  | .inlineLiteral component => s!"component {component} is an inline literal"

/-- What does not fit a format, be it read or about to be written. -/
inductive FormatFault where
  | dictionaryName (fault : Utf8.Fault)
  | tableReferences (length : Nat)
  | pathText (text : String)
  | chunkInMissingBlock (path : String) (block : Nat)
  | payloadTooLarge (length : Nat)
  | chunkTooFar (path : String)
  | dataTooLarge (block : Nat)
  | poolOutside (poolLength dataLength : Nat)
  | poolDoesNotFit (dataLength slots : Nat)
  | codeTooLarge
  | poolTooLarge
  deriving Repr, DecidableEq

def FormatFault.message : FormatFault → String
  | .dictionaryName fault => s!"dictionary name is not UTF-8: {fault.message}"
  | .tableReferences length =>
    s!"table reference region is {length} bytes, not a multiple of 8"
  | .pathText text => s!"invalid chunk path: {text}"
  | .chunkInMissingBlock path block => s!"chunk {path} lives in missing block {block}"
  | .payloadTooLarge length => s!"payload of {length} bytes is too large"
  | .chunkTooFar path => s!"chunk {path} would end past 4 GiB after repacking"
  | .dataTooLarge block => s!"data file exceeds 4 GiB at block {block}"
  | .poolOutside poolLength dataLength =>
    s!"script data pool of {poolLength} bytes does not fit in {dataLength} bytes"
  | .poolDoesNotFit dataLength slots =>
    s!"script data of {dataLength} bytes cannot hold a {slots}-slot pool"
  | .codeTooLarge => "code region too large"
  | .poolTooLarge => "data pool too large"

/-! ## Errors -/

inductive Error where
  | file (fault : FileFault)
  /-- A name that its terminator does not follow. -/
  | unexpectedEnd
  | badMagic (found : UInt32)
  | blockOutOfRange (block stop dataLength : Nat)
  | tooMany (count : Nat)
  | corruptBlock (block : Nat) (damage : Damage)
  | damagedBlock (block : Nat)
  | table (offset : Nat) (fault : TableFault)
  | chunkNotFound (path : String)
  | notALeaf (path : String)
  | missingChunk (part : ModulePart)
  | moveWidth (width : UInt32) (offset : Nat)
  | functionNotFound (script function : Nat)
  | notPatchable (offset : UInt32) (fault : PatchFault)
  | format (fault : FormatFault)
  deriving Repr, DecidableEq

/-- The four bytes that a dictionary begins with, as a word. -/
def dictionaryMagic : UInt32 := 0xA9F32458

def Error.message : Error → String
  | .file fault => s!"IO error: {fault.message}"
  | .unexpectedEnd => "unexpected end of data"
  | .badMagic found =>
    s!"invalid dictionary magic: expected {prefixedHex 8 dictionaryMagic.toNat}, "
      ++ s!"found {prefixedHex 8 found.toNat}"
  | .blockOutOfRange block stop dataLength =>
    s!"block {block} lies outside the data file ({stop} > {dataLength})"
  | .tooMany count => s!"too many blocks for a dictionary: {count}"
  | .corruptBlock block damage => s!"corrupt block {block}: {damage.message}"
  | .damagedBlock block =>
    s!"corrupt block {block}: block failed to inflate and cannot be edited"
  | .table offset fault => s!"invalid chunk table at {prefixedHex 1 offset}: {fault.message}"
  | .chunkNotFound path => s!"chunk not found: {path}"
  | .notALeaf path => s!"chunk {path} has children and carries no payload"
  | .missingChunk part => s!"script module is missing its {part.name} chunk"
  | .moveWidth width offset =>
    s!"unsupported move width {width} at code offset {prefixedHex 1 offset}"
  | .functionNotFound script function =>
    s!"function {function} of script {script} not found"
  | .notPatchable offset fault =>
    s!"variable at {prefixedHex 1 offset.toNat} cannot be patched: {fault.message}"
  | .format fault => s!"invalid format: {fault.message}"

end ChunkArchive
