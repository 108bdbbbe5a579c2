import ChunkArchive.CommandLine.Run
import ChunkArchive.Deflate.Codec

/-!
# The command line program
-/

set_option autoImplicit false

namespace ChunkArchive.CommandLine

/-- The number of an error, which some calls of the system give with the opposite sign. -/
def errorNumber (code : UInt32) : UInt32 := min code (0 - code)

def faultOfError (e : IO.Error) : FileFault :=
  match e with
  | .noFileOrDirectory _ _ _ => .notFound
  | .inappropriateType _ code _ | .invalidArgument _ code _ =>
    match errorNumber code with
    | 20 => .notADirectory
    | 21 => .isADirectory
    | 36 => .nameTooLong
    | _ => .other (toString e)
  | _ => .other (toString e)

/-- The files of the system. -/
def systemDisk : Disk BaseIO where
  read path := do
    let result ← (IO.FS.readBinFile path).toBaseIO
    return (result.mapError faultOfError).map fun bytes => bytes.data.toList
  write path bytes := do
    let result ← (IO.FS.writeBinFile path bytes.toByteArray).toBaseIO
    return result.mapError faultOfError

end ChunkArchive.CommandLine

open ChunkArchive.CommandLine

def main (arguments : List String) : IO UInt32 := do
  let result ← (run systemDisk .deflate arguments : BaseIO Result)
  IO.print result.output
  match result.failure with
  | some failure => IO.eprintln ("Error: " ++ failure.message)
  | none => if result.exitCode = 2 then IO.eprint helpText
  return result.exitCode
