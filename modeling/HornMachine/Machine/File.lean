import HornMachine.Machine

/-!
# Loading from files
-/
namespace HornMachine

/-- What was found under the name of a program file. -/
inductive ProgramFile
  | missing
  | bytes (content : ByteArray)
  /-- The file is there but cannot be read. -/
  | unreadable (reason : String)

namespace ProgramFile

/-- A program file holds UTF-8 text. -/
def text : ProgramFile → Except LoadError String
  | .missing => .error (.unreadable "No such file or directory (os error 2)")
  | .unreadable reason => .error (.unreadable reason)
  | .bytes content =>
    match String.fromUTF8? content with
    | some text => .ok text
    | none => .error (.unreadable "stream did not contain valid UTF-8")

end ProgramFile

def Machine.ofFile (settings : Settings) (file : ProgramFile) : Loading Machine :=
  match file.text with
  | .error e => throw e
  | .ok text => ofText settings text

end HornMachine
