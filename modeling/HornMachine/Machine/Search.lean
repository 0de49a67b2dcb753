import HornMachine.Machine
import HornMachine.Term.Readout

/-!
# The resolution machine: search

The first goal of the latest choice point is resolved against its next candidate
whose keys do not rule it out. Only the head is copied before it is unified; on
a clash the store goes back to where it was. On success the rest of the clause is
copied, and its body goals in front of the remaining ones make the next choice
point; when no goals remain this is an answer.

A choice point without candidates left is taken off the stack and everything
done since it was made is undone. A query without body holds once.

A search need not end, and neither need a unification: `fuel` bounds the number
of choice points looked at, and what is left of it the work of each unification.
-/
namespace HornMachine

/-- An answer whose bindings are still in place. -/
structure Answer where
  head : Cell
  trailMark : Nat
  /-- Heap top before the clause copy that completed the proof. -/
  base : Nat
deriving DecidableEq, Repr

/-- How the attempt to resolve the first goal of a choice point ended. -/
inductive Resolution
  | exhausted
  | advanced (next : ChoicePoint)
  | answered (a : Answer)

namespace Program

/-- Keys and candidates of the first goal, computed once per choice point. -/
def prepare (p : Program) (h : Heap) (goal : Cell) (point : ChoicePoint) :
    Except Halt (Keys × ChoicePoint) :=
  match point.keys with
  | some keys => .ok (keys, point)
  | none => do
    let keys ← Keys.ofRef h goal p.settings.positions
    let candidates :=
      match p.index with
      | some index => .only (index.candidates keys).toArray
      | none => point.candidates
    return (keys, { point with keys := some keys, candidates })

/-- Copy a clause, unify its head with the goal and queue its body. -/
def resolveWith (p : Program) (fuel : Nat) (queryHead goal : Cell) (rest : List Cell)
    (clause : Clause) (store : Store) : Except Halt (Option Resolution × Store) :=
  match store with
  | ⟨heap, trail⟩ => do
    let base := heap.top
    let mark := trail.mark
    let shift := base - clause.base
    let (head, heap) ← clause.copyHead heap shift
    let (unified, store) ← Store.unify ⟨heap, trail⟩ fuel base goal head
    if unified then
      match store with
      | ⟨heap, trail⟩ => do
        let (body, heap) ← clause.copyBody heap shift
        if body.isEmpty && rest.isEmpty then
          return (some (.answered ⟨queryHead, mark, base⟩), ⟨heap, trail⟩)
        else
          return (some (.advanced (.fresh head base (body ++ rest) mark p.clauses.size)),
            ⟨heap, trail⟩)
    else
      return (none, ← store.restore mark base)

/-- Try the next `untried` candidates in turn. -/
def tryCandidates (p : Program) (fuel : Nat) (queryHead goal : Cell) (rest : List Cell)
    (keys : Keys) :
    Nat → ChoicePoint → Store → Except Halt (Resolution × ChoicePoint × Store)
  | 0, point, store => .ok (.exhausted, point, store)
  | untried + 1, point, store =>
    match point.candidates.get? point.cursor with
    | none => .ok (.exhausted, point, store)
    | some id =>
      let point := { point with cursor := point.cursor + 1 }
      match p.clauses[id]? with
      | none => .error .outOfRange
      | some clause =>
        if keys.admits clause.keys then do
          match ← p.resolveWith fuel queryHead goal rest clause store with
          | (some r, store) => return (r, point, store)
          | (none, store) => p.tryCandidates fuel queryHead goal rest keys untried point store
        else p.tryCandidates fuel queryHead goal rest keys untried point store

/-- Resolve the first goal against its next matching clause. The cursor moves
past the clause used, so that a later call goes on behind it. -/
def unfold (p : Program) (fuel : Nat) (queryHead : Cell) (point : ChoicePoint) (store : Store) :
    Except Halt (Resolution × ChoicePoint × Store) :=
  match point.goals with
  | [] => .ok (.exhausted, point, store)
  | goal :: rest => do
    let (keys, point) ← p.prepare store.heap goal point
    p.tryCandidates fuel queryHead goal rest keys point.untried point store

/-- Run until the next answer or until no choice points are left. -/
def search (p : Program) (queryHead : Cell) :
    Nat → List ChoicePoint → Store → Except Halt (Option Answer × List ChoicePoint × Store)
  | _, [], store => .ok (none, [], store)
  | 0, _ :: _, _ => .error .unfinished
  | fuel + 1, point :: stack, store =>
    if !point.hasGoals then do
      let store ← store.restore point.trailMark point.base
      return (some ⟨point.head, point.trailMark, point.base⟩, stack, store)
    else if !point.hasClauses then do
      p.search queryHead fuel stack (← store.restore point.trailMark point.base)
    else do
      match ← p.unfold fuel queryHead point store with
      | (.exhausted, point, store) =>
        p.search queryHead fuel stack (← store.restore point.trailMark point.base)
      | (.advanced next, point, store) =>
        p.search queryHead fuel (next :: point :: stack) store
      | (.answered a, point, store) => return (some a, point :: stack, store)

end Program

namespace Machine

/-- The next answer, with its bindings in place. The stack is kept, so a later
call goes on from exactly here. -/
def step (m : Machine) (fuel : Nat) : Except Halt (Option Answer × Machine) :=
  match m with
  | ⟨program, store, stack, queryHead⟩ => do
    let (answer, stack, store) ← program.search queryHead fuel stack store
    return (answer, ⟨program, store, stack, queryHead⟩)

def readout (m : Machine) (c : Cell) : Except Halt Term := m.heap.readout m.symbols c

/-- Undo the bindings and the clause copy of an answer. -/
def retract (m : Machine) (a : Answer) : Except Halt Machine :=
  match m with
  | ⟨program, store, stack, queryHead⟩ => do
    return ⟨program, ← store.restore a.trailMark a.base, stack, queryHead⟩

/-- The next answer as a term. Its bindings exist only while it is read out. -/
def ask (m : Machine) (fuel : Nat) : Except Halt (Option Term × Machine) := do
  match ← m.step fuel with
  | (none, m) => return (none, m)
  | (some a, m) =>
    let term ← m.readout a.head
    return (some term, ← m.retract a)

/-- At most `count` further answers; the machine is not asked again after the
last of them. -/
def take (m : Machine) (fuel : Nat) : Nat → Except Halt (List Term × Machine)
  | 0 => .ok ([], m)
  | count + 1 => do
    match ← m.ask fuel with
    | (none, m) => return ([], m)
    | (some t, m) =>
      let (ts, m) ← m.take fuel count
      return (t :: ts, m)

end Machine

end HornMachine
