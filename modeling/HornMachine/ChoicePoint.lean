import HornMachine.Clause.Key

/-!
# Choice points

A choice point is made when a clause was used: the goals still to prove, the
heap top before that clause was copied, and the trail mark before its head was
unified. Its cursor says how far the first goal has got through its candidate
clauses. The keys of that goal are computed when it is first resolved, and kept.
-/
namespace HornMachine

/-- Clauses the first goal may be resolved against. -/
inductive Candidates
  /-- Every clause in order of declaration. -/
  | all (count : Nat)
  /-- Clauses left by the index, ascending. -/
  | only (ids : Array Nat)
deriving DecidableEq, Repr

namespace Candidates

def size : Candidates → Nat
  | .all n => n
  | .only ids => ids.size

def isEmpty (c : Candidates) : Bool := c.size = 0

/-- The clause at position `k`. -/
def get? : Candidates → Nat → Option Nat
  | .all n, k => if k < n then some k else none
  | .only ids, k => ids[k]?

end Candidates

structure ChoicePoint where
  /-- Head of the clause copy this choice point was made from. -/
  head : Cell
  /-- Heap top to go back to. -/
  base : Nat
  goals : List Cell
  /-- Trail mark to go back to. -/
  trailMark : Nat
  /-- Next candidate position to try. -/
  cursor : Nat := 0
  keys : Option Keys := none
  candidates : Candidates

namespace ChoicePoint

def fresh (head : Cell) (base : Nat) (goals : List Cell) (trailMark clauseCount : Nat) :
    ChoicePoint :=
  { head, base, goals, trailMark, candidates := .all clauseCount }

/-- The first goal has candidates not tried yet. -/
def hasClauses (p : ChoicePoint) : Bool := p.cursor < p.candidates.size

def hasGoals (p : ChoicePoint) : Bool := !p.goals.isEmpty

/-- Candidates not tried yet. -/
def untried (p : ChoicePoint) : Nat := p.candidates.size - p.cursor

end ChoicePoint

end HornMachine
