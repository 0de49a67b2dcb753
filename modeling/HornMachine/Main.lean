import HornMachine.CommandLine

/-!
# Program entry

Reads the arguments and the program file and prints a session as it goes on.
-/
namespace HornMachine

open CommandLine

def usage : String :=
  "Run a program of clauses and print the answers to its last one.\n\n" ++
  "Arguments: [OPTIONS] FILE\n\n" ++
  "  --listing            print the symbols and the linked clauses first\n" ++
  "  --count              print the first few answers and their number only\n" ++
  "  --max-answers N      stop after N answers\n" ++
  "  --index-threshold N  index programs of at least N clauses\n" ++
  "  --no-index           never index\n"

def readFile (name : String) : IO ProgramFile := do
  try
    return .bytes (← IO.FS.readBinFile name)
  catch
    | .noFileOrDirectory .. => return .missing
    | e => return .unreadable (toString e)

/-- Far more work than any run can do. -/
def ampleFuel : Nat := 1000000000000000000

partial def printSession (s : Session) : IO UInt32 := do
  match s.next ampleFuel with
  | .error _ => return haltStatus.toUInt32
  | .ok (text, s?) =>
    IO.print text
    match s? with
    | some s => printSession s
    | none => return 0

def runMain (o : Options) (name : String) : IO UInt32 := do
  match Session.start o (← readFile name) with
  | .error _ => return haltStatus.toUInt32
  | .ok (.error e) =>
    let failure := loadFailure name e
    IO.eprint failure.stderr
    return failure.status.toUInt32
  | .ok (.ok s) =>
    match s.opening with
    | .error _ => return haltStatus.toUInt32
    | .ok text =>
      IO.print text
      printSession s

end HornMachine

def main (args : List String) : IO UInt32 := do
  match HornMachine.CommandLine.parse args with
  | .run o name => HornMachine.runMain o name
  | .help =>
    IO.print HornMachine.usage
    return 0
  | .misuse =>
    IO.eprint HornMachine.usage
    return 2
