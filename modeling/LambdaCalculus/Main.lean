import LambdaCalculus.CommandLine.Program
import LambdaCalculus.Name.Request

/-!
# The executable

Hands the command line and the file to the program and passes on what it prints. Output has control
sequences for colour if the environment sets `FORCE_COLOR`.
-/

namespace LambdaCalculus.CommandLine

/-- The first answer of a search that is given more and more fuel. -/
partial def firstAnswer {β : Type} (attempt : Nat → Option β) (fuel : Nat) : IO β :=
  match attempt fuel with
  | some answer => pure answer
  | none => firstAnswer attempt (2 * fuel)

/-- What the program usually finds around it, where there is no colour. -/
def Surroundings.usual : Surroundings := { bound := Name.Request.bound, nesting := some 1000 }

def readContents (path : String) : IO (Option (List UInt8)) :=
  try
    let bytes ← IO.FS.readBinFile path
    pure (some bytes.toList)
  catch _ => pure none

/-- The contents of the file that a command line names, if it names one and it can be read. -/
def namedContents (arguments : List String) : IO (Option (List UInt8)) :=
  match Options.ofArguments arguments with
  | .ok { file := .named path, .. } => readContents path
  | _ => pure none

end LambdaCalculus.CommandLine

def main (arguments : List String) : IO UInt32 := do
  let contents ← LambdaCalculus.CommandLine.namedContents arguments
  let colour := (← IO.getEnv "FORCE_COLOR").isSome
  let around := { LambdaCalculus.CommandLine.Surroundings.usual with colour }
  let output ← LambdaCalculus.CommandLine.firstAnswer
    (LambdaCalculus.CommandLine.run around · arguments fun _ => contents) 1000
  let stdout ← IO.getStdout
  stdout.putStr (output.stdout.render colour)
  stdout.flush
  let stderr ← IO.getStderr
  stderr.putStr output.stderr
  pure (UInt32.ofNat (output.exit.getD 0).toNat)
