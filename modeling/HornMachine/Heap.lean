import HornMachine.Cell
import HornMachine.Halt

/-!
# The cell heap

Cells are addressed by position. Clause templates lie at the bottom, and copies
made during a search are pushed above them and cut off again. A heap holds fewer
than 2^60 cells, so every heap address fits the payload of a cell.

`deref` follows a variable chain to an unbound variable or a non-variable. A
chain that ends does so within one step more than there are cells, so the bound
it runs under is computed from the heap and `unfinished` means that the chain
never ends.
-/
namespace HornMachine

structure Heap where
  cells : Array Cell
  size_lt : cells.size < 1 <<< 60

namespace Heap

def empty : Heap := ⟨#[], by decide⟩

/-- Address the next push will use. -/
def top (h : Heap) : Nat := h.cells.size

def get? (h : Heap) (a : Nat) : Option Cell := h.cells[a]?

def read (h : Heap) (a : Nat) : Except Halt Cell :=
  match h.cells[a]? with
  | some c => .ok c
  | none => .error .outOfRange

def write (h : Heap) (a : Nat) (c : Cell) : Except Halt Heap :=
  if inRange : a < h.cells.size then
    .ok ⟨h.cells.set a c, by simpa using h.size_lt⟩
  else .error .outOfRange

def push (h : Heap) (c : Cell) : Except Halt Heap :=
  if room : h.cells.size + 1 < 1 <<< 60 then
    .ok ⟨h.cells.push c, by simpa using room⟩
  else .error .full

def pushAll (h : Heap) : List Cell → Except Halt Heap
  | [] => .ok h
  | c :: cs => do pushAll (← h.push c) cs

/-- Drop every cell at or above `a`. -/
def truncate (h : Heap) (a : Nat) : Heap :=
  ⟨h.cells.shrink a, by have := h.size_lt; simp; omega⟩

/-- The cell a variable or reference points at. -/
def target (h : Heap) (c : Cell) : Except Halt Cell := h.read c.addr

/-- `deref` in at most `steps` further steps. -/
def derefWithin (h : Heap) : Nat → Cell → Except Halt Cell
  | steps, c =>
    if c.isVar then do
      let next ← h.target c
      if next = c then .ok c
      else match steps with
        | 0 => .error .unfinished
        | steps + 1 => derefWithin h steps next
    else .ok c

/-- Follow a variable chain until an unbound variable or a non-variable. -/
def deref (h : Heap) (c : Cell) : Except Halt Cell := h.derefWithin (h.top + 1) c

/-- Append cells, shifting their internal references by `base`. -/
def pushRelocated (h : Heap) (base : Nat) (cs : List Cell) : Except Halt Heap :=
  h.pushAll (cs.map (·.relocate base))

/-- The end of the span of `len` addresses from `start`; addresses wrap at 2^64. -/
def spanEnd (start len : Nat) : Nat := (start + len) % (1 <<< 64)

def copyCells (base : Nat) : Nat → Nat → Heap → Except Halt Heap
  | 0, _, h => .ok h
  | n + 1, a, h => do copyCells base n (a + 1) (← h.push ((← h.read a).relocate base))

/-- Append copies of `len` cells from `start`, shifting internal references by
`base`. The span may run into the cells being appended. -/
def copyRelocated (h : Heap) (base start len : Nat) : Except Halt Heap :=
  if h.top + len < 1 <<< 60 then copyCells base (spanEnd start len - start) start h
  else .error .full

/-- Element count of the structure a reference points at, if it is one. -/
def arity (h : Heap) (ref : Cell) : Option Nat :=
  match h.get? ref.addr with
  | some c => if c.tag = .arrayHeader then some c.addr else none
  | none => none

/-- The cells of `[start, stop)`. -/
def slice (h : Heap) (start stop : Nat) : Except Halt (List Cell) :=
  if start ≤ stop ∧ stop ≤ h.top then .ok (h.cells.extract start stop).toList
  else .error .outOfRange

def toList (h : Heap) : List Cell := h.cells.toList

end Heap

end HornMachine
