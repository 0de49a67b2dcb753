import HornMachine.Clause.Code
import HornMachine.Clause.Key

/-!
# Stored clauses

A clause template lies on the heap from its base on, with its references moved
there. Copies are made from the template.
-/
namespace HornMachine

structure Clause where
  /-- Number of cells. -/
  len : Nat
  base : Nat
  /-- Offset of the first body cell. -/
  neck : Nat
  /-- Number of cells copied before the head is unified. -/
  headLen : Nat
  head : Cell
  body : List Cell
  keys : Keys

namespace Clause

/-- The references to the head and to each body goal. -/
def goals (c : Clause) : List Cell := c.head :: c.body

/-- Store code at the top of the heap. -/
def store (h : Heap) (code : ClauseCode) (head : Cell) (body : List Cell) (positions : Nat) :
    Except Halt (Clause × Heap) := do
  let base := h.top
  let h ← h.pushRelocated base code.cells.toList
  let head := head.relocate base
  let keys ← Keys.ofRef h head positions
  return ({ len := code.size
            base
            neck := code.neck
            headLen := code.headLen
            head
            body := body.map (·.relocate base)
            keys }, h)

/-- Append the cells a head copy needs; the head of the copy. -/
def copyHead (c : Clause) (h : Heap) (shift : Nat) : Except Halt (Cell × Heap) := do
  return (c.head.relocate shift, ← h.copyRelocated shift c.base c.headLen)

/-- Append the rest of the clause; the goals of the copy. -/
def copyBody (c : Clause) (h : Heap) (shift : Nat) : Except Halt (List Cell × Heap) := do
  return (c.body.map (·.relocate shift),
    ← h.copyRelocated shift (c.base + c.headLen) (c.len - c.headLen))

end Clause

end HornMachine
