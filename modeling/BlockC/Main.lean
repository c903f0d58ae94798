import BlockC.CommandLine.Command

/-! # The program

Runs the command that the arguments ask for, on the files of the system.
-/
namespace BlockC

/-- A fault in the words of the system. -/
def FileFault.ofSystem (e : IO.Error) : FileFault :=
  let known :=
    match e with
    | .noFileOrDirectory _ code _ => FileFault.ofCode? code.toNat
    | .inappropriateType _ code _ => FileFault.ofCode? code.toNat
    | .invalidArgument _ code _ => FileFault.ofCode? code.toNat
    | _ => none
  known.getD (.other (toString e))

/-- The bytes of a file of the system. -/
def readFile (path : String) : IO (Except FileFault ByteArray) := do
  try
    return .ok (← IO.FS.readBinFile path)
  catch e => return .error (.ofSystem e)

/-- Writes a file of the system. -/
def writeFile (path text : String) : IO (Option FileFault) := do
  try
    IO.FS.writeFile path text
    return none
  catch e => return some (.ofSystem e)

/-- Says what an ending says and gives its status. -/
def Command.Ending.perform (e : Command.Ending) : IO UInt32 := do
  (← IO.getStdout).putStr e.out
  (← IO.getStderr).putStr e.err
  return UInt32.ofNat e.status

/-- Runs a command. -/
def Command.run (cmd : Command) : IO UInt32 := do
  match cmd.plan (Command.asText (← readFile cmd.input)) with
  | .finish ending => ending.perform
  | .write path text => (Command.afterWrite path (← writeFile path text)).perform

end BlockC

def main (args : List String) : IO UInt32 := do
  match BlockC.Command.ofArgs? args with
  | some cmd => cmd.run
  | none =>
    (← IO.getStderr).putStrLn "usage: INPUT [-o OUTPUT] [--prelude] [--dump-tree]"
    return 2
