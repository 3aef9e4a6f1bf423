/-
  The command line program.
-/
import ZXCircuits.CommandLine

open ZXCircuits

def readIfThere (path : String) : IO (Option (String × String)) := do
  try
    return some (path, ← IO.FS.readFile path)
  catch _ =>
    return none

def main (args : List String) : IO UInt32 := do
  let files ← args.filterMapM readIfThere
  let place ← IO.currentDir
  let seed ← IO.rand 0 2147483647
  let run := CommandLine.run { folder := files, place := place.toString } args
  let (result, out) := Run.outcome (run (Random.Congruential.ofSeed seed))
  IO.print out
  match result with
  | .ok (finish, _) =>
    for (path, text) in finish.made do
      IO.FS.writeFile path text
    IO.eprint finish.complaint
    return (finish.exit.getD 0).toUInt32
  | .error e =>
    IO.eprintln (e.message.getD "The command failed.")
    return 1
