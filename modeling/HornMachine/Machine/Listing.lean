import HornMachine.Machine.Search
import HornMachine.Term.Notation

/-!
# Listings of a loaded program
-/
namespace HornMachine.Machine

def showTerm (m : Machine) (c : Cell) : Except Halt String := do
  return (← m.readout c).print

/-- Goals behind the first one. -/
def showGoals (m : Machine) : List Cell → Except Halt String
  | [] => .ok ""
  | g :: gs => do return ", " ++ (← m.showTerm g) ++ (← m.showGoals gs)

/-- A clause as `head :- goal, goal.` -/
def showClauseTerm (m : Machine) (c : Clause) : Except Halt String := do
  let head ← m.showTerm c.head
  match c.body with
  | [] => return head ++ "."
  | g :: gs => return head ++ " :- " ++ (← m.showTerm g) ++ (← m.showGoals gs) ++ "."

/-- Placement, cells and goals of a clause, then the clause as terms. -/
def showClause (m : Machine) (c : Clause) : Except Halt String := do
  let placement := "---base:[" ++ c.base.repr ++ "] neck: " ++ c.neck.repr ++
    " len: " ++ c.len.repr ++ "-----\n"
  let cells := m.heap.showCells m.symbols c.base c.len
  let goals := ", ".intercalate (c.goals.map m.symbols.showCell)
  return placement ++ cells ++ "skeleton: [" ++ goals ++ "]\n" ++
    (← m.showClauseTerm c) ++ "\n"

def showClauses (m : Machine) : List (Clause × Nat) → Except Halt String
  | [] => .ok ""
  | (c, i) :: cs => do
    return "clause " ++ i.repr ++ "\n" ++ (← m.showClause c) ++ (← m.showClauses cs)

/-- The symbols, then every clause. -/
def listing (m : Machine) : Except Halt String := do
  let symbols := m.symbols.entries.map fun (id, name) =>
    "  " ++ id.repr ++ " " ++ name ++ "\n"
  return "symbols:\n" ++ String.join symbols ++
    (← m.showClauses m.program.clauses.toList.zipIdx)

end HornMachine.Machine
