import HornMachine.LoadError

/-!
# Linked clauses

The code of a clause is a block of cells with addresses counted from its start,
a reference to the header of its head and of every body goal, and the neck: the
offset where the body starts. `validate` accepts code whose references stay
inside it, whose structures have headers, and whose head lies before the neck.
Offsets are added modulo 2^64 when an array is checked against the end of the
clause.
-/
namespace HornMachine

structure ClauseCode where
  cells : Array Cell
  /-- References to the head, then to each body goal. -/
  goals : List Cell
  neck : Nat
deriving DecidableEq, Repr

namespace ClauseCode

def size (c : ClauseCode) : Nat := c.cells.size

/-- A cell before the neck refers to one at or behind it. -/
def headReachesBody (c : ClauseCode) : Bool :=
  (c.cells.toList.take c.neck).any fun cell => cell.isInternalRef && c.neck ≤ cell.addr

/-- Number of leading cells that a copy of the head needs. A head may refer to a
structure written behind the first body goal; then the whole clause goes with it. -/
def headLen (c : ClauseCode) : Nat := if c.headReachesBody then c.size else c.neck

def isHeaderAt (c : ClauseCode) (a : Nat) : Bool :=
  match c.cells[a]? with
  | some cell => cell.tag = .arrayHeader
  | none => false

def checkGoal (c : ClauseCode) (goal : Cell) : Except LoadError Unit :=
  if goal.tag = .structRef ∧ c.isHeaderAt goal.addr then .ok ()
  else .error (.goalWithoutHeader goal)

def checkCell (c : ClauseCode) (cell : Cell) (offset : Nat) : Except LoadError Unit :=
  match cell.tag with
  | .malformed => .error (.unresolvedCell offset)
  | .constant | .number => .ok ()
  | .arrayHeader =>
    if (offset + cell.addr) % (1 <<< 64) < c.size then .ok () else .error (.arrayPastEnd offset)
  | .unboundVar | .varRef =>
    if cell.addr < c.size then .ok () else .error (.danglingReference cell offset)
  | .structRef =>
    if cell.addr < c.size then
      if c.isHeaderAt cell.addr then .ok () else .error (.referenceWithoutHeader offset)
    else .error (.danglingReference cell offset)

def validate (c : ClauseCode) : Except LoadError Unit :=
  match c.goals with
  | [] => .error .noHead
  | head :: _ => do
    if c.size < c.neck then throw (.neckPastEnd c.neck c.size)
    c.goals.forM c.checkGoal
    if c.neck ≤ head.addr then throw .headInBody
    c.cells.toList.zipIdx.forM fun (cell, offset) => c.checkCell cell offset

end ClauseCode

end HornMachine
