import HornMachine.Trail

/-!
# Unification on the store

Two terms are made equal by binding variables. The pairs still to be made equal
lie on a work list, leftmost pair first. Of two unbound variables the younger,
at the higher address, is bound to the older, so variable chains point
downwards. Variables above the boundary belong to the clause copy being tried
and vanish with it; only bindings at or below it are logged.

There is no occurs check, so unification of cyclic terms need not end; `fuel`
bounds the number of pairs taken off the work list. On failure the bindings made
so far stay in place.
-/
namespace HornMachine.Store

/-- Put the element pairs `1 .. n` of the structures at `a` and `b` in front of
`work`, leaving out pairs of equal cells. -/
def pushElements (h : Heap) (a b : Nat) :
    Nat → List (Cell × Cell) → Except Halt (List (Cell × Cell))
  | 0, work => .ok work
  | n + 1, work => do
    let x ← h.read (a + (n + 1))
    let y ← h.read (b + (n + 1))
    pushElements h a b n (if x = y then work else (x, y) :: work)

/-- The work left once the headers at `a` and `b` agree; `none` if they differ. -/
def pushStructures (h : Heap) (a b : Nat) (work : List (Cell × Cell)) :
    Except Halt (Option (List (Cell × Cell))) := do
  let ha ← h.read a
  let hb ← h.read b
  if ha = hb then return some (← pushElements h a b ha.addr work)
  else return none

def unifyAll (boundary : Nat) :
    Nat → List (Cell × Cell) → Store → Except Halt (Bool × Store)
  | _, [], s => .ok (true, s)
  | 0, _ :: _, _ => .error .unfinished
  | fuel + 1, (a, b) :: work, s => do
    let x ← s.heap.deref a
    let y ← s.heap.deref b
    if x = y then unifyAll boundary fuel work s
    else if x.isVar then
      if y.isVar && x.addr < y.addr then
        unifyAll boundary fuel work (← s.bind boundary y.addr x)
      else
        unifyAll boundary fuel work (← s.bind boundary x.addr y)
    else if y.isVar then
      unifyAll boundary fuel work (← s.bind boundary y.addr x)
    else if x.tag = .structRef ∧ y.tag = .structRef then
      match ← pushStructures s.heap x.addr y.addr work with
      | some work => unifyAll boundary fuel work s
      | none => .ok (false, s)
    else .ok (false, s)

/-- Make the terms at `goal` and `head` equal, or answer that they clash. -/
def unify (s : Store) (fuel boundary : Nat) (goal head : Cell) : Except Halt (Bool × Store) :=
  unifyAll boundary fuel [(goal, head)] s

end HornMachine.Store
