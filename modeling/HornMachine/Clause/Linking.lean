import HornMachine.Clause.Code
import HornMachine.Symbols

/-!
# From sentences to code

Every element becomes a block: a header with the number of its words and a cell
per word. The block of an equation `X holds ...` is no goal; it is the anchor to
which every other occurrence of `X` refers. A variable without an equation is
unbound at its first occurrence, and the later ones point back at it.

`X lists a b c` stands for a chain of such equations that ends in `nil`; the
names of the inner cells are made from `X` and a number.
-/
namespace HornMachine

namespace Sentence

/-- The name of the rest of the list `name` behind its first `i` items. -/
def restName (name : String) (i : Nat) : String :=
  if i = 0 then name else name ++ "__" ++ i.repr

/-- Equations for the items of the list `name` from the `i`-th on. -/
def listChain (name : String) (i : Nat) : List Word → Sentence
  | [] => []
  | [item] => [[.holds (restName name i), .const "list", item, .const "nil"]]
  | item :: next :: items =>
    [.holds (restName name i), .const "list", item, .var (restName name (i + 1))] ::
      listChain name (i + 1) (next :: items)

def expandElement : Element → Except LoadError Sentence
  | [.lists name] => .error (.emptyList name)
  | .lists name :: items => .ok (listChain name 0 items)
  | element => .ok [element]

/-- Every `lists` element replaced by its chain of equations. -/
def expandLists (s : Sentence) : Except LoadError Sentence :=
  List.flatten <$> s.mapM expandElement

end Sentence

/-- Cell of a block before variables are resolved. -/
inductive Slot
  | fixed (cell : Cell)
  | variable (name : String)
deriving DecidableEq, Repr

/-- Where a variable name occurs, and whether an equation anchors it there. -/
structure Mention where
  name : String
  addr : Nat
  anchor : Bool
deriving DecidableEq, Repr

/-- Blocks laid out so far. -/
structure Layout where
  slots : Array Slot := #[]
  mentions : Array Mention := #[]
  goals : Array Nat := #[]

namespace Layout

def fix (l : Layout) (c : Cell) : Layout := { l with slots := l.slots.push (.fixed c) }

def mention (l : Layout) (name : String) : Layout :=
  { l with
    mentions := l.mentions.push ⟨name, l.slots.size, false⟩
    slots := l.slots.push (.variable name) }

/-- Start the block of a goal of `count` words. -/
def openGoal (l : Layout) (count : Nat) : Layout :=
  { l with
    goals := l.goals.push l.slots.size
    slots := l.slots.push (.fixed (.header count)) }

/-- Start the block of an equation of `count` words for `name`. -/
def openEquation (l : Layout) (name : String) (count : Nat) : Layout :=
  { l with
    mentions := l.mentions.push ⟨name, l.slots.size, true⟩
    slots := l.slots.push (.fixed (.header count)) }

/-- Names anchored by more than one equation. -/
def ambiguousNames (l : Layout) : List String :=
  let names := (l.mentions.toList.filter (·.anchor)).map (·.name)
  names.filter fun name => 1 < names.count name

/-- The first variable mentioned that has more than one equation. -/
def ambiguous? (l : Layout) : Option String :=
  match l.ambiguousNames with
  | [] => none
  | names => (l.mentions.find? fun m => names.contains m.name).map (·.name)

def anchorOf? (l : Layout) (name : String) : Option Nat :=
  (l.mentions.find? fun m => m.anchor && m.name = name).map (·.addr)

def firstOf? (l : Layout) (name : String) : Option Nat :=
  (l.mentions.find? fun m => m.name = name).map (·.addr)

/-- The cell of the variable `name` at address `a`. -/
def resolve (l : Layout) (name : String) (a : Nat) : Cell :=
  match l.anchorOf? name with
  | some anchor => .structRef anchor
  | none =>
    match l.firstOf? name with
    | some first => if first = a then .var a else .varRef first
    | none => .var a

def cells (l : Layout) : Array Cell :=
  l.slots.mapIdx fun a slot =>
    match slot with
    | .fixed c => c
    | .variable name => l.resolve name a

/-- The offset of the first body goal, or of the end when there is none. -/
def neck (l : Layout) : Nat := l.goals[1]?.getD l.slots.size

def code (l : Layout) : ClauseCode :=
  { cells := l.cells
    goals := l.goals.toList.map Cell.structRef
    neck := l.neck }

end Layout

/-- Linking interns names, and keeps them when it fails. -/
abbrev Linking := ExceptT LoadError (StateM Symbols)

namespace Linking

def intern (name : String) : Linking Nat := modifyGet (·.intern name)

def placeWord (l : Layout) : Word → Linking Layout
  | .const name => return l.fix (.constant (← intern name))
  | .number n => return l.fix (.number n)
  | .var name => return l.mention name
  | .holds name => throw (.innerMarker .holds name)
  | .lists name => throw (.innerMarker .lists name)

/-- Lay out one element; `first` says that it is the head. -/
def placeElement (first : Bool) (l : Layout) : Element → Linking Layout
  | .holds name :: words =>
    if first then throw (.equationHead name)
    else words.foldlM placeWord (l.openEquation name words.length)
  | words => words.foldlM placeWord (l.openGoal words.length)

def placeSentence : Sentence → Linking Layout
  | [] => return {}
  | head :: body => do body.foldlM (placeElement false) (← placeElement true {} head)

def link (s : Sentence) : Linking ClauseCode := do
  let l ← placeSentence (← liftExcept s.expandLists)
  match l.ambiguous? with
  | some name => throw (.ambiguousVariable name)
  | none =>
    liftExcept l.code.validate
    return l.code

end Linking

/-- Turn a sentence into code; the symbols also hold the names of a sentence
that was refused. -/
def ClauseCode.ofSentence (s : Sentence) (symbols : Symbols) :
    Except LoadError ClauseCode × Symbols :=
  (Linking.link s).run symbols

end HornMachine
