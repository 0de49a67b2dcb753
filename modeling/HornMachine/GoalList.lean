import HornMachine.Cell

/-!
# Shared lists of pending goals

New goals are only ever put in front, so lists share their tails. Every node has
a number of its own, given when it is made; two lists are the same list when
they start at the same node or are both empty.
-/
namespace HornMachine

structure GoalNode where
  number : Nat
  goal : Cell
deriving DecidableEq, Repr

structure GoalList where
  nodes : List GoalNode
deriving DecidableEq, Repr

namespace GoalList

/-- Making a node takes the next free number. -/
abbrev Numbering := StateM Nat

def empty : GoalList := ⟨[]⟩

def cons (goal : Cell) (tail : GoalList) : Numbering GoalList :=
  modifyGet fun n => (⟨⟨n, goal⟩ :: tail.nodes⟩, n + 1)

/-- `goals` in front of `tail`, in their order. -/
def prepend (goals : List Cell) (tail : GoalList) : Numbering GoalList :=
  goals.reverse.foldlM (fun acc goal => cons goal acc) tail

def ofList (goals : List Cell) : Numbering GoalList := prepend goals empty

def isEmpty (l : GoalList) : Bool := l.nodes.isEmpty

def head? (l : GoalList) : Option Cell := l.nodes.head?.map (·.goal)

/-- The list behind the first goal; the empty list behind none. -/
def tail (l : GoalList) : GoalList := ⟨l.nodes.tail⟩

def toList (l : GoalList) : List Cell := l.nodes.map (·.goal)

def length (l : GoalList) : Nat := l.nodes.length

/-- Both start at the same node, or both are empty. -/
def same (l m : GoalList) : Bool :=
  l.nodes.head?.map (·.number) = m.nodes.head?.map (·.number)

end GoalList

end HornMachine
