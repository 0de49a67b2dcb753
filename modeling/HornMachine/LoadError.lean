import HornMachine.Cell
import HornMachine.Sentence

/-!
# Why a program is not accepted

One constructor per cause; the wording is in `message` alone. Lines count from 1.
-/
namespace HornMachine

inductive LoadError
  /-- The text ends inside the sentence that starts on `line`. -/
  | unfinishedSentence (line : Nat)
  | emptyElement (line : Nat)
  /-- A marker that does not stand right behind a single variable. -/
  | misplacedMarker (marker : Marker) (line : Nat)
  | arithmetic (line : Nat)
  | emptyList (name : String)
  /-- A marker past the start of its element. -/
  | innerMarker (marker : Marker) (name : String)
  | equationHead (name : String)
  | ambiguousVariable (name : String)
  | noHead
  | neckPastEnd (neck size : Nat)
  | goalWithoutHeader (goal : Cell)
  | headInBody
  | unresolvedCell (offset : Nat)
  | danglingReference (cell : Cell) (offset : Nat)
  | referenceWithoutHeader (offset : Nat)
  | arrayPastEnd (offset : Nat)
  | emptyProgram
  /-- The program text could not be obtained. -/
  | unreadable (reason : String)
deriving DecidableEq, Repr

namespace LoadError

/-- The stage that refuses. -/
inductive Kind
  | read
  | malformed
  | unsupported
  | emptyProgram
  | file
deriving DecidableEq, Repr

def kind : LoadError → Kind
  | .unfinishedSentence _ | .emptyElement _ | .misplacedMarker .. => .read
  | .arithmetic _ => .unsupported
  | .emptyProgram => .emptyProgram
  | .unreadable _ => .file
  | _ => .malformed

def Kind.heading : Kind → String
  | .read => "Read error: "
  | .malformed => "Malformed clause: "
  | .unsupported => "Unsupported: "
  | .emptyProgram => "Error: "
  | .file => "I/O error: "

def atLine (text : String) (line : Nat) : String :=
  text ++ " (line " ++ line.repr ++ ")"

def detail : LoadError → String
  | .unfinishedSentence line => atLine "sentence is missing its final '.'" line
  | .emptyElement line => atLine "empty clause element" line
  | .misplacedMarker marker line =>
    atLine ("'" ++ marker.text ++ "' must follow exactly one variable") line
  | .arithmetic line => "arithmetic 'is' at line " ++ line.repr
  | .emptyList name => "'" ++ name ++ " lists' needs at least one item"
  | .innerMarker marker name => "'" ++ name ++ " " ++ marker.text ++ "' must start its element"
  | .equationHead name => "clause head cannot be the equation '" ++ name ++ " holds ...'"
  | .ambiguousVariable name => "variable " ++ name ++ " is defined by more than one 'holds'"
  | .noHead => "clause has no head"
  | .neckPastEnd neck size =>
    "neck " ++ neck.repr ++ " is past the end of a " ++ size.repr ++ "-cell clause"
  | .goalWithoutHeader goal =>
    "skeleton entry " ++ goal.describe ++ " does not reference an array header"
  | .headInBody => "head lies outside the head region"
  | .unresolvedCell offset => "unresolved cell at offset " ++ offset.repr
  | .danglingReference cell offset =>
    "reference " ++ cell.describe ++ " at offset " ++ offset.repr ++
      " points outside the clause"
  | .referenceWithoutHeader offset =>
    "struct ref at offset " ++ offset.repr ++ " does not point at an array header"
  | .arrayPastEnd offset =>
    "array at offset " ++ offset.repr ++ " runs past the end of the clause"
  | .emptyProgram => "program has no clauses"
  | .unreadable reason => reason

def message (e : LoadError) : String := e.kind.heading ++ e.detail

end LoadError

end HornMachine
