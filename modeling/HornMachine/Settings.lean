/-!
# Settings of a machine

Clauses are indexed once there are `indexThreshold` of them, on the leading
`indexArgs` positions of their heads. Position 0 is the predicate symbol. The
heap capacity is a hint and has no effect on answers.
-/
namespace HornMachine

/-- Most head positions a clause is indexed on. -/
def maxPositions : Nat := 3

/-- The largest 64-bit size; as a threshold it turns indexing off. -/
def maxSize : Nat := (1 <<< 64) - 1

structure Settings where
  indexThreshold : Nat := 20
  indexArgs : Nat := maxPositions
  heapCapacity : Nat := 1 <<< 15
deriving DecidableEq, Repr

namespace Settings

def withoutIndex : Settings := { indexThreshold := maxSize }

def alwaysIndex : Settings := { indexThreshold := 0 }

/-- A number of positions brought into the supported range. -/
def clampPositions (n : Nat) : Nat := max 1 (min n maxPositions)

def positions (s : Settings) : Nat := clampPositions s.indexArgs

def shouldIndex (s : Settings) (clauseCount : Nat) : Bool := s.indexThreshold ≤ clauseCount

end Settings

end HornMachine
