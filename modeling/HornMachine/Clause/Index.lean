import HornMachine.Clause.Key
import Std.Data.TreeMap

/-!
# The clause index

For every indexed position the index maps a key to the clauses that carry it and
keeps apart the clauses with a variable there. Clauses are numbered in order of
declaration and every list of numbers is ascending, so the candidates for a goal
come out in that order too, and membership in a list is decided by binary search.
-/
namespace HornMachine

/-- The clauses by their key at one position. -/
structure PositionIndex where
  keyed : Std.TreeMap Key (Array Nat) := {}
  /-- Clauses with a variable at this position. -/
  wild : Array Nat := #[]

namespace PositionIndex

def bucket (p : PositionIndex) (key : Key) : Array Nat := p.keyed.getD key #[]

/-- Add a clause behind those with lower numbers. -/
def insert (p : PositionIndex) (key : Key) (id : Nat) : PositionIndex :=
  if key.isAny then { p with wild := p.wild.push id }
  else { p with keyed := p.keyed.insert key ((p.bucket key).push id) }

def ofKeys (keys : List (Key × Nat)) : PositionIndex :=
  keys.foldl (fun p (key, id) => p.insert key id) {}

/-- The clause `id` has the key or a variable at this position. -/
def admits (p : PositionIndex) (key : Key) (id : Nat) : Bool :=
  (p.bucket key).binSearchContains id (· < ·) || p.wild.binSearchContains id (· < ·)

end PositionIndex

/-- Union of two ascending lists without common elements. -/
def mergeAscending : List Nat → List Nat → List Nat
  | [], bs => bs
  | as, [] => as
  | a :: as, b :: bs =>
    if a < b then a :: mergeAscending as (b :: bs) else b :: mergeAscending (a :: as) bs
termination_by as bs => as.length + bs.length

structure ClauseIndex where
  positions : List PositionIndex
  clauseCount : Nat

namespace ClauseIndex

/-- Index clauses with the given keys on their leading `positions` positions. -/
def build (keys : List Keys) (positions : Nat) : ClauseIndex where
  positions := (List.range (Settings.clampPositions positions)).map fun i =>
    .ofKeys (keys.zipIdx.map fun (k, id) => (k[i]?.getD .any, id))
  clauseCount := keys.length

/-- The indexed positions at which a goal has a key, with that key. -/
def constraints (ix : ClauseIndex) (goal : Keys) : List (PositionIndex × Key) :=
  (ix.positions.zip goal.toList).filter fun (_, key) => !key.isAny

/-- Clauses whose head may match a goal, ascending: those that have the goal's
key or a variable wherever the goal has a key. -/
def candidates (ix : ClauseIndex) (goal : Keys) : List Nat :=
  match ix.constraints goal with
  | [] => List.range ix.clauseCount
  | (p, key) :: rest =>
    (mergeAscending (p.bucket key).toList p.wild.toList).filter fun id =>
      rest.all fun (q, key) => q.admits key id

end ClauseIndex

end HornMachine
