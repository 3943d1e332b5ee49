import Lineage.Command.Run

/-!
# The program

The outermost layer: it fetches the arguments and the files that they name, has the
run decided by `Command`, and does what the outcome says. Nothing is decided here.
-/

namespace Lineage

/-- What the system says about a file, as a problem. -/
def FileProblem.ofError : IO.Error → FileProblem
  | .noFileOrDirectory .. => .notFound
  | .inappropriateType _ code _ => if code = 21 then .isDirectory else .notDirectory
  | e => .other (toString e).toList

/-- The bytes of a file, or why there are none. -/
def readFile (path : Text) : IO (Except FileProblem (List UInt8)) := do
  try
    return .ok (← IO.FS.readBinFile (String.ofList path)).toList
  catch e =>
    return .error (.ofError e)

/-- Writes a file, and says why if that cannot be done. -/
def writeFile (path content : Text) : IO (Option FileProblem) := do
  try
    IO.FS.writeFile (String.ofList path) (String.ofList content)
    return none
  catch e =>
    return some (.ofError e)

/-- Recovers the classes of a dump as the arguments say. -/
def runArguments (a : Command.Arguments) : IO UInt32 := do
  let dump ← readFile a.dump
  let config ← match a.config with
    | some path => readFile path
    | none => pure (.error .notFound)
  let prepared := Command.prepare (fun path => if path = a.dump then dump else config) a
  let refusal ← match prepared.file? with
    | some (path, content) => writeFile path content
    | none => pure none
  let outcome := prepared.deliver refusal
  for w in outcome.warnings do
    IO.eprintln ("[WARN ] " ++ String.ofList w.message)
  for m in outcome.messages do
    IO.eprintln (String.ofList m)
  IO.print (String.ofList outcome.output)
  return UInt32.ofNat outcome.exitCode

end Lineage

open Lineage in
/-- Runs the command line. -/
def main (args : List String) : IO UInt32 := do
  match Command.Request.ofArguments (args.map String.toList) with
  | .run a => runArguments a
  | .version =>
    IO.print (String.ofList Command.versionText)
    return 0
  | .help =>
    IO.print (String.ofList Command.usage)
    return 0
  | .misuse =>
    IO.eprint (String.ofList Command.usage)
    return 1
