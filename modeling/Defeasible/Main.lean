import Defeasible.CommandLine.Run

/-! The program: reads the files that its arguments name, and prints what the command says. -/

namespace Defeasible.CommandLine

def readSource (path : String) : IO Source := do
  match ← (IO.FS.Handle.mk path .read).toBaseIO with
  | .error _ => return .missing
  | .ok handle => match ← handle.readBinToEnd.toBaseIO with
    | .error _ => return .unreadable
    | .ok bytes => return .file bytes.data.toList

def program (args : List String) : IO UInt32 := do
  let sources ← (paths args).mapM fun path => do return (path, ← readSource path)
  let (status, output) := run (fun path => (sources.lookup path).getD .missing) args
  let console ← IO.getStdout
  console.putStr output
  return .ofNat status

end Defeasible.CommandLine

def main (args : List String) : IO UInt32 := Defeasible.CommandLine.program args
