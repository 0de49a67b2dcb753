import HornMachine.Symbols
import HornMachine.Term
import HornMachine.Trail
import Std.Data.TreeSet

/-!
# Reading terms out of the heap

A cell is dereferenced and becomes a label, an integer, or, for a reference to a
header whose block lies inside the heap, the array of its elements. Unbound
variables become `V` followed by their address. Malformed content becomes a
diagnostic label.

The walk keeps the structures it is inside on a list of frames, innermost first,
so long lists need no call stack. Bindings can make a term cyclic: a structure
reached again from inside itself, or lying inside more than `maxDepth` others,
is cut off with the label `...`. The addresses of the structures that are open
are kept in a set beside the frames: a header enters it when its frame is opened
and leaves it when the frame is closed.

Every step either uses up one element of an open frame or closes a frame. An
element of a frame weighs more than a whole frame one level further in, which
bounds the walk.
-/
namespace HornMachine

/-- Structures inside more than this many others are cut off. -/
def maxDepth : Nat := 10000

/-- What a cell turns out to be: a finished term, or the header address and the
elements of a structure. -/
inductive Opened
  | leaf (t : Term)
  | block (header : Nat) (elements : List Cell)

/-- A structure being read: elements read so far, latest first, and elements to
come. -/
structure Frame where
  header : Nat
  done : List Term
  pending : List Cell

namespace Heap

/-- The structure whose header lies at `a`. The last element would lie below
`spanEnd`; a header with a negative count asks for more elements than there can
be cells. -/
def openStructure (h : Heap) (symbols : Symbols) (a : Nat) : Except Halt Opened :=
  match h.get? a with
  | none => .ok (.leaf (.label ("*** index out of range: " ++ a.repr)))
  | some c =>
    if c.tag = .arrayHeader then
      let stop := spanEnd (a + 1) c.addr
      if h.top < stop then
        .ok (.leaf (.label
          ("*** index out of range: " ++ (a + 1).repr ++ ".." ++ stop.repr)))
      else if c.payload < 0 then .error .full
      else .ok (.block a (h.cells.extract (a + 1) stop).toList)
    else .ok (.leaf (.label ("*** should be A, found=" ++ symbols.showCell c)))

def openCell (h : Heap) (symbols : Symbols) (c : Cell) : Except Halt Opened := do
  let c ← h.deref c
  match c.tag with
  | .constant => .ok (.leaf (.label (symbols.nameOf c.payload)))
  | .number => .ok (.leaf (.int c.payload))
  | .unboundVar => .ok (.leaf (.label ("V" ++ c.addr.repr)))
  | .structRef => h.openStructure symbols c.addr
  | _ => .ok (.leaf (.label ("*BAD TERM*" ++ symbols.showCell c)))

theorem length_le_of_openCell {h : Heap} {symbols : Symbols} {c : Cell} {a : Nat}
    {elements : List Cell} (opened : h.openCell symbols c = .ok (.block a elements)) :
    elements.length ≤ h.top := by
  simp only [openCell, bind, Except.bind] at opened
  split at opened
  · simp at opened
  · split at opened <;> try simp at opened
    simp only [openStructure] at opened
    split at opened
    · simp at opened
    · split at opened
      · split at opened
        · simp at opened
        · split at opened
          · simp at opened
          · simp only [Except.ok.injEq, Opened.block.injEq] at opened
            rw [← opened.2, Array.length_toList, Array.size_extract]
            simp only [top]
            omega
      · simp at opened

/-- The most steps a walk can take before `current` and its parents are closed. -/
def walkBound (width : Nat) (current : Frame) : List Frame → Nat
  | [] => current.pending.length * Nat.pow (width + 3) (maxDepth + 1) + 1
  | parent :: parents =>
    current.pending.length * Nat.pow (width + 3) (maxDepth - parents.length) + 1 +
      walkBound width parent parents

theorem walkBound_eq (width : Nat) (current : Frame) (parents : List Frame) :
    walkBound width current parents =
      current.pending.length * Nat.pow (width + 3) (maxDepth + 1 - parents.length) + 1 +
        match parents with
        | [] => 0
        | parent :: rest => walkBound width parent rest := by
  cases parents with
  | nil => simp [walkBound]
  | cons p ps =>
    simp only [walkBound, List.length_cons]
    rw [Nat.add_sub_add_right]

theorem walkBound_open {width : Nat} {header : Nat} {done : List Term} {c : Cell}
    {cs : List Cell} {parents : List Frame} {a : Nat} {elements : List Cell}
    (shallow : parents.length < maxDepth) (short : elements.length ≤ width) :
    walkBound width ⟨a, [], elements⟩ (⟨header, done, cs⟩ :: parents) <
      walkBound width ⟨header, done, c :: cs⟩ parents := by
  rw [walkBound_eq width ⟨header, done, c :: cs⟩ parents]
  simp only [walkBound]
  rw [walkBound_eq width ⟨header, done, cs⟩ parents]
  simp only [List.length_cons]
  have split : maxDepth + 1 - parents.length = (maxDepth - parents.length) + 1 := by omega
  have step : Nat.pow (width + 3) (maxDepth - parents.length + 1) =
      Nat.pow (width + 3) (maxDepth - parents.length) * (width + 3) := rfl
  rw [split, step]
  have one : 1 ≤ Nat.pow (width + 3) (maxDepth - parents.length) :=
    Nat.one_le_pow _ _ (by omega)
  have grow := Nat.mul_le_mul_right (Nat.pow (width + 3) (maxDepth - parents.length)) short
  have expand : (cs.length + 1) * (Nat.pow (width + 3) (maxDepth - parents.length) * (width + 3)) =
      cs.length * (Nat.pow (width + 3) (maxDepth - parents.length) * (width + 3)) +
        (width * Nat.pow (width + 3) (maxDepth - parents.length) +
          3 * Nat.pow (width + 3) (maxDepth - parents.length)) := by
    rw [Nat.add_mul, Nat.one_mul, Nat.mul_comm _ (width + 3), Nat.add_mul width 3]
  rw [expand]
  omega

theorem walkBound_leaf {width : Nat} {header : Nat} {done done' : List Term} {c : Cell}
    {cs : List Cell} {parents : List Frame} :
    walkBound width ⟨header, done', cs⟩ parents <
      walkBound width ⟨header, done, c :: cs⟩ parents := by
  rw [walkBound_eq width ⟨header, done, c :: cs⟩, walkBound_eq width ⟨header, done', cs⟩]
  have one : 1 ≤ Nat.pow (width + 3) (maxDepth + 1 - parents.length) :=
    Nat.one_le_pow _ _ (by omega)
  simp only [List.length_cons, Nat.add_mul]
  omega

theorem walkBound_close {width : Nat} {header header' : Nat} {done done' done'' : List Term}
    {cs : List Cell} {parents : List Frame} :
    walkBound width ⟨header', done'', cs⟩ parents <
      walkBound width ⟨header, done, []⟩ (⟨header', done', cs⟩ :: parents) := by
  simp only [walkBound, List.length_nil]
  rw [walkBound_eq width ⟨header', done'', cs⟩, walkBound_eq width ⟨header', done', cs⟩]
  dsimp only
  omega

set_option linter.unusedVariables false in
/-- Read on inside `current`, which lies inside `parents`, innermost first; `opens`
are the headers of all of them. -/
def walk (h : Heap) (symbols : Symbols) (opens : Std.TreeSet Nat) (current : Frame)
    (parents : List Frame) : Except Halt Term :=
  match current with
  | ⟨header, done, []⟩ =>
    let term := Term.array done.reverse
    match parents with
    | [] => .ok term
    | ⟨header', done', cs⟩ :: parents =>
      walk h symbols (opens.erase header) ⟨header', term :: done', cs⟩ parents
  | ⟨header, done, c :: cs⟩ =>
    match opened : h.openCell symbols c with
    | .error e => .error e
    | .ok (.leaf t) => walk h symbols opens ⟨header, t :: done, cs⟩ parents
    | .ok (.block a elements) =>
      if inner : parents.length < maxDepth ∧ a ∉ opens then
        walk h symbols (opens.insert a) ⟨a, [], elements⟩ (⟨header, done, cs⟩ :: parents)
      else walk h symbols opens ⟨header, .label "..." :: done, cs⟩ parents
termination_by walkBound h.top current parents
decreasing_by
  · exact walkBound_close
  · exact walkBound_leaf
  · exact walkBound_open inner.1 (length_le_of_openCell opened)
  · exact walkBound_leaf

/-- The term rooted at a cell. -/
def readout (h : Heap) (symbols : Symbols) (c : Cell) : Except Halt Term := do
  match ← h.openCell symbols c with
  | .leaf t => .ok t
  | .block a elements => h.walk symbols (.ofList [a]) ⟨a, [], elements⟩ []

/-- The cells of `len` addresses from `start`, a line each; the first address
outside the heap ends the listing. -/
def showCellsFrom (h : Heap) (symbols : Symbols) : Nat → Nat → String
  | 0, _ => ""
  | n + 1, a =>
    match h.get? a with
    | some c => "[" ++ a.repr ++ "] " ++ symbols.showCell c ++ "\n" ++
        showCellsFrom h symbols n (a + 1)
    | none => "[" ++ a.repr ++ "] <out of range>\n"

def showCells (h : Heap) (symbols : Symbols) (start len : Nat) : String :=
  h.showCellsFrom symbols (spanEnd start len - start) start

end Heap

end HornMachine
