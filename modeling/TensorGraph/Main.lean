import TensorGraph.CommandLine.Response

/-! The command: it reads the files that the arguments name and acts on the response. -/
namespace TensorGraph.CommandLine

private def readText (path : String) : IO (Option String) := do
  try
    return some (← IO.FS.readFile path)
  catch _ =>
    return none

private def writeText (path text : String) : IO Bool := do
  try
    IO.FS.writeFile path text
    return true
  catch _ =>
    return false

/-- Prints a response and writes its file. Returns the exit code. -/
private def perform (r : Response) : IO UInt32 := do
  IO.eprint r.stderr
  IO.print r.stdout
  match r.file with
  | none => return r.exit.toUInt32
  | some (path, text) =>
    if ← writeText path text then return r.exit.toUInt32
    else
      let failed := (RunError.unwritable path).response
      IO.eprint failed.stderr
      return failed.exit.toUInt32

end TensorGraph.CommandLine

open TensorGraph.CommandLine in
def main (args : List String) : IO UInt32 := do
  let texts ← (filesRead args).mapM fun path => do return (path, ← readText path)
  perform (execute (fun path => (texts.lookup path).join) args)
