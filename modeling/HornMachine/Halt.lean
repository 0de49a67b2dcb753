/-!
# Computations that stop without a value

Heap operations are partial: an address may lie outside the heap, the heap may
have no room left, and a chain or a search need not end. Each of these is a
value here. The first two are faults of the state at hand; `unfinished` only
says that the work supplied as fuel was used up. Neither a heap of 2^60 cells
nor a program of more than 2^32 names is followed any further.
-/
namespace HornMachine

inductive Halt
  /-- An address at or above the heap top was read or written. -/
  | outOfRange
  /-- More cells were asked for than a heap can hold, or more names than can be
  numbered. -/
  | full
  | unfinished
deriving DecidableEq, Repr

end HornMachine
