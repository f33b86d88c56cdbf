import ScriptLint.Command.Directory
import ScriptLint.Command.Run
import ScriptLint.Pattern.Reader

/-!
# The program

Reads the files that the arguments name and, if no script is among them, the standard input, and
runs the command on them.
-/

namespace ScriptLint

/-- The text at a path of the file system. -/
def readPath (path : String) : IO (Except ReadFault String) := do
  try
    let bytes ← IO.FS.readBinFile path
    return Command.decodeText bytes
  catch
    | .noFileOrDirectory .. => return .error .missing
    | .inappropriateType .. => return .error .directory
    | e => return .error (.other (toString e))

/-- All bytes of a stream from here on, behind `sofar`. -/
partial def readRest (stream : IO.FS.Stream) (sofar : ByteArray) : IO ByteArray := do
  let bytes ← stream.read 65536
  if bytes.isEmpty then return sofar else readRest stream (sofar ++ bytes)

/-- The text on the standard input, unless it is a terminal. -/
def readInput : IO (Option (Except ReadFault String)) := do
  let stream ← IO.getStdin
  if ← stream.isTty then return none
  let bytes ← readRest stream ByteArray.empty
  return some (Command.decodeText bytes)

/-- What is said where the arguments make no request. -/
def advice : Command.Halt → String
  | .version => "jsweep 0.1.0\n"
  | _ => "Usage: jsweep [OPTIONS] <check|rules|tokens> [ARGUMENTS]\n"

/-- The surroundings of a run in which nothing can be read. -/
def emptyEnvironment : Command.Environment where
  textAt _ := .error .missing
  input := none
  engine := Regex.engine
  explain _ := "not an object with settings"
  advise _ := advice

/-- The surroundings of a run, as far as its request looks at them. -/
def readEnvironment (request : Command.Request) : IO Command.Environment := do
  let files ← request.paths.mapM fun path => return (path, ← readPath path)
  let input ← if request.readsInput then readInput else pure none
  return { emptyEnvironment with
    textAt := fun path => (files.lookup path).getD (.error .missing)
    input := input }

end ScriptLint

open ScriptLint in
/-- Runs the program. -/
def main (args : List String) : IO UInt32 := do
  let env ← match Command.parse args with
    | .ok request => readEnvironment request
    | .error _ => pure emptyEnvironment
  let outcome := Command.run env args
  IO.print outcome.output
  IO.eprint outcome.errors
  return outcome.status.toUInt32
