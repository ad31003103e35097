import Emu8085.CommandLine.Program

/-!
# Command line

Reads the files that the arguments name and standard input if they ask for it, then writes what
the program answers.
-/
namespace Emu8085.CommandLine

/-- All bytes of a stream, after those already taken. -/
partial def readAll (stream : IO.FS.Stream) (taken : ByteArray) : IO ByteArray := do
  let chunk ← stream.read 65536
  if chunk.isEmpty then return taken else readAll stream (taken ++ chunk)

def bytesOf (data : ByteArray) : List Byte := data.toList.map fun b => BitVec.ofNat 8 b.toNat

/-- Why reading a file failed; a reason of any other kind counts as a missing file. -/
def fileError : IO.Error → FileError
  | .permissionDenied _ _ _ => .forbidden
  | .inappropriateType _ 21 _ => .folder
  | .inappropriateType _ _ _ => .notFolder
  | .invalidArgument _ _ _ => .nameTooLong
  | _ => .missing

def contents (path : String) : IO (Except FileError (List Byte)) := do
  try
    return .ok (bytesOf (← IO.FS.readBinFile path))
  catch e => return .error (fileError e)

end Emu8085.CommandLine

open Emu8085.CommandLine in
def main (words : List String) : IO UInt32 := do
  let paths := match Arguments.ofWords words with
    | .ok a => a.filepath :: a.config.toList
    | .error _ => []
  let found ← paths.mapM fun path => return (path, ← contents path)
  let stdin ←
    if paths.head? == some inputPath then pure (bytesOf (← readAll (← IO.getStdin) .empty))
    else pure []
  let files : Files := fun path => (found.lookup path).getD (.error .missing)
  let response := respond files stdin words
  (← IO.getStdout).putStr response.stdout
  (← IO.getStderr).putStr response.stderr
  return response.code.toUInt32
