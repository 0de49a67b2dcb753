import HornMachine.Heap

/-!
# The store: a heap and the log of its bindings

The trail lists the addresses of variables that were unbound when they were
logged and were bound afterwards. Unwinding to a mark takes the later entries
off, newest first, and lets each variable point at itself again.
-/
namespace HornMachine

structure Trail where
  addrs : Array Nat := #[]

namespace Trail

def push (t : Trail) (a : Nat) : Trail := ⟨t.addrs.push a⟩

/-- Number of entries, the watermark that unwinding goes back to. -/
def mark (t : Trail) : Nat := t.addrs.size

def isEmpty (t : Trail) : Bool := t.addrs.isEmpty

/-- Undo the last `count` bindings. -/
def undo : Nat → Trail → Heap → Except Halt (Trail × Heap)
  | 0, t, h => .ok (t, h)
  | n + 1, t, h =>
    match t.addrs.back? with
    | none => .ok (t, h)
    | some a => do undo n ⟨t.addrs.pop⟩ (← h.write a (Cell.var a))

/-- Undo every binding recorded after `mark`. -/
def unwind (t : Trail) (mark : Nat) (h : Heap) : Except Halt (Trail × Heap) :=
  undo (t.mark - mark) t h

end Trail

structure Store where
  heap : Heap
  trail : Trail

namespace Store

def empty : Store := ⟨.empty, {}⟩

def unwind (s : Store) (mark : Nat) : Except Halt Store :=
  match s with
  | ⟨heap, trail⟩ => do
    let (trail, heap) ← trail.unwind mark heap
    .ok ⟨heap, trail⟩

def truncate (s : Store) (top : Nat) : Store :=
  match s with
  | ⟨heap, trail⟩ => ⟨heap.truncate top, trail⟩

/-- Go back to a trail mark and a heap top taken together. -/
def restore (s : Store) (mark top : Nat) : Except Halt Store := do
  return (← s.unwind mark).truncate top

/-- Bind the variable at `a`; the binding is logged when `a ≤ boundary`. -/
def bind (s : Store) (boundary a : Nat) (value : Cell) : Except Halt Store :=
  match s with
  | ⟨heap, trail⟩ => do
    let heap ← heap.write a value
    .ok ⟨heap, if a ≤ boundary then trail.push a else trail⟩

end Store

end HornMachine
