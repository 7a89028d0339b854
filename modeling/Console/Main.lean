import Console.Program

/-!
# The command line

* `main`: runs the router console on the standard input.
-/

open Console

/-- What a path leads to in the file system. A path that goes on below a file or is too long leads
nowhere. -/
def readContents (path : String) : IO Contents := do
  try
    let bytes ← IO.FS.readBinFile path
    return .bytes bytes.data.toList
  catch
    | .noFileOrDirectory .. | .inappropriateType (some _) .. | .invalidArgument .. =>
      return .missing
    | .inappropriateType none .. => return .directory
    | _ => return .closed

/-- All bytes of a stream. -/
partial def readAll (stream : IO.FS.Stream) (bytes : ByteArray) : IO ByteArray := do
  let more ← stream.read 65536
  if more.isEmpty then return bytes else readAll stream (bytes ++ more)

/-- Runs the router console on the standard input. -/
def main (args : List String) : IO UInt32 := do
  let home := (← IO.getEnv "HOME").getD "~"
  let contents ← match Arguments.read args with
    | .ok a => readContents (Program.settingsPath home a)
    | .error _ => pure .missing
  let input ← readAll (← IO.getStdin) .empty
  let result := Program.run home (fun _ => contents) args input.data.toList
  (← IO.getStdout).putStr result.output
  (← IO.getStderr).putStr result.errors
  return result.exitCode.toUInt32
