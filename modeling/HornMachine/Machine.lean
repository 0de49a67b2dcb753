import HornMachine.ChoicePoint
import HornMachine.Clause
import HornMachine.Clause.Index
import HornMachine.Clause.Linking
import HornMachine.Sentence.Reader
import HornMachine.Unification

/-!
# The resolution machine: loading

A program is its clause templates, stored at the bottom of the heap, together
with the symbols and, from the threshold on, the index. The last clause is the
query, and answers are instances of its head. A program with more names than
there are numbers for them is not loaded. A machine is a program with the state
of a search: the store and the stack of choice points, latest first.
-/
namespace HornMachine

structure Program where
  settings : Settings
  symbols : Symbols
  clauses : Array Clause
  query : Clause
  index : Option ClauseIndex
  /-- Heap top above the clause templates. -/
  staticTop : Nat

structure Machine where
  program : Program
  store : Store
  stack : List ChoicePoint
  /-- Head of the query; every answer is an instance of it. -/
  queryHead : Cell

/-- Loading is refused with a `LoadError`, or halts on the heap. -/
abbrev Loading := ExceptT LoadError (Except Halt)

namespace Program

/-- Validate code and store it behind the clauses stored so far. -/
def storeCode (positions : Nat) (acc : Heap × Array Clause) (code : ClauseCode) :
    Loading (Heap × Array Clause) := do
  let (h, clauses) := acc
  liftExcept code.validate
  match code.goals with
  | [] => throw .noHead
  | head :: body =>
    let (clause, h) ← Clause.store h code head body positions
    return (h, clauses.push clause)

end Program

namespace Machine

/-- Drop all search state and start the query again. -/
def restart (m : Machine) : Except Halt Machine :=
  match m with
  | ⟨program, store, _, _⟩ => do
    let store ← store.restore 0 program.staticTop
    let head := program.query.head
    let start := ChoicePoint.fresh head program.staticTop program.query.body store.trail.mark
      program.clauses.size
    return ⟨program, store, [start], head⟩

/-- Load linked clauses; their constants are numbered in `symbols`. -/
def ofCode (settings : Settings) (symbols : Symbols) (codes : List ClauseCode) :
    Loading Machine := do
  if codes.isEmpty then throw .emptyProgram
  let (heap, clauses) ← codes.foldlM (Program.storeCode settings.positions) (.empty, #[])
  match clauses.back? with
  | none => throw .emptyProgram
  | some query =>
    symbols.checkCount
    let index :=
      if settings.shouldIndex clauses.size then
        some (ClauseIndex.build (clauses.toList.map (·.keys)) settings.positions)
      else none
    let program : Program :=
      { settings, symbols, clauses, query, index, staticTop := heap.top }
    restart ⟨program, ⟨heap, {}⟩, [], query.head⟩

/-- Link sentences one after the other with one table of symbols. -/
def linkAll : Symbols → List Sentence → Except LoadError (List ClauseCode × Symbols)
  | symbols, [] => .ok ([], symbols)
  | symbols, s :: ss =>
    match ClauseCode.ofSentence s symbols with
    | (.error e, _) => .error e
    | (.ok code, symbols) => do
      let (codes, symbols) ← linkAll symbols ss
      return (code :: codes, symbols)

def ofSentences (settings : Settings) (ss : List Sentence) : Loading Machine :=
  match linkAll {} ss with
  | .error e => throw e
  | .ok (codes, symbols) => ofCode settings symbols codes

/-- Load a program text. -/
def ofText (settings : Settings) (text : String) : Loading Machine :=
  match readProgram text with
  | .error e => throw e
  | .ok ss => ofSentences settings ss

/-- Number of choice points on the stack. -/
def depth (m : Machine) : Nat := m.stack.length

def isIndexed (m : Machine) : Bool := m.program.index.isSome

def heap (m : Machine) : Heap := m.store.heap

def symbols (m : Machine) : Symbols := m.program.symbols

end Machine

end HornMachine
