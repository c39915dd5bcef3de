import StakeConsensus.Command.Execution
import StakeConsensus.Command.LocalNetwork

/-!
# The program

Reads the file that the arguments name, performs the command, and lets a network go
on second by second until it has reached its height.
-/

open StakeConsensus

/-- The text of a file, if it can be read. -/
def readText (path : String) : IO (Option String) := do
  try
    return some (← IO.FS.readFile path)
  catch _ =>
    return none

/-- The path of the settings file among the arguments. -/
def settingsPath (args : List String) : Option String :=
  match Command.parse args with
  | .ok (.run o) => o.config
  | _ => none

/-- Lets a second pass, again and again. -/
partial def runOn (s : NodeSettings) (d : Devnet) : IO Unit := do
  if s.isDone d then return
  IO.sleep 1000
  runOn s (d.run 1000)

def main (args : List String) : IO UInt32 := do
  let text ← match settingsPath args with
    | some path => readText path
    | none => pure none
  match Command.execute (fun _ => text) args with
  | .exit e =>
    IO.print e.output
    IO.eprint e.errors
    return e.code
  | .start s =>
    match s.network 0 with
    | .error e =>
      IO.eprintln e.message
      return 101
    | .ok d =>
      runOn s d
      return 0
