import HornMachine.Heap
import HornMachine.Settings

/-!
# Keys of head positions

A key sums up one element of a goal or a clause head: a constant or a number is
its own key, a structure is known by its header, and an unbound variable is the
wildcard. Two elements with different keys that are both no wildcard cannot be
unified.
-/
namespace HornMachine

structure Key where
  raw : Int64
deriving DecidableEq, Repr

namespace Key

/-- Order of the signed words. -/
instance : Ord Key := ⟨fun k l => compare k.raw l.raw⟩

instance : Std.TransOrd Key where
  eq_swap {k l} := Std.OrientedOrd.eq_swap (a := k.raw) (b := l.raw)
  isLE_trans {_ _ _} := Std.TransOrd.isLE_trans (α := Int64)

instance : Std.LawfulEqOrd Key where
  compare_self {k} := Std.ReflOrd.compare_self (a := k.raw)
  eq_of_compare {k l} h := by
    have same : k.raw = l.raw := Std.LawfulEqOrd.eq_of_compare h
    cases k
    cases l
    exact congrArg Key.mk same

/-- Matches every key. -/
def any : Key := ⟨0⟩

def isAny (k : Key) : Bool := k = any

/-- Key of a cell that has been dereferenced. -/
def ofCell (h : Heap) (c : Cell) : Except Halt Key :=
  match c.tag with
  | .structRef => return ⟨(← h.target c).word⟩
  | .constant | .number => return ⟨c.word⟩
  | _ => return any

def admits (k l : Key) : Bool := k.isAny || l.isAny || k = l

end Key

/-- Keys of the leading positions of a goal or a clause head. -/
abbrev Keys := Vector Key maxPositions

namespace Keys

def wild : Keys := Vector.replicate maxPositions .any

/-- The clause keys `l` do not rule out a goal with the keys `k`. -/
def admits (k l : Keys) : Bool := decide (∀ i : Fin maxPositions, (k.get i).admits (l.get i))

/-- The key of the element at `a`, dereferenced. -/
def keyAt (h : Heap) (a : Nat) : Except Halt Key := do
  Key.ofCell h (← h.deref (← h.read a))

/-- Keys of the first `positions` elements of the structure `ref` points at;
positions past its arity, or past the last supported one, stay wildcards. -/
def ofRef (h : Heap) (ref : Cell) (positions : Nat) : Except Halt Keys := do
  let count := min ((h.arity ref).getD 0) positions
  let key (i : Nat) : Except Halt Key :=
    if i < count then keyAt h (ref.addr + 1 + i) else return .any
  return #v[← key 0, ← key 1, ← key 2]

end Keys

end HornMachine
