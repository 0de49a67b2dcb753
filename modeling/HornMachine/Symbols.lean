import HornMachine.Cell
import HornMachine.Halt

/-!
# Interned names

Each distinct name has one number, given in order of first use and never taken
back. Numbers are 32-bit words: the name after the last of them gets the first
number again, and a number always stands for the name that had it first. A table
that has come that far cannot serve a program.
-/
namespace HornMachine

structure Symbols where
  names : Array String := #[]

namespace Symbols

/-- Numbers lie below this. -/
def limit : Nat := 1 <<< 32

/-- The number of a name, without interning it. -/
def lookup (s : Symbols) (name : String) : Option Nat :=
  (s.names.idxOf? name).map (· % limit)

/-- The number of a name, a new one if it has none yet. -/
def intern (s : Symbols) (name : String) : Nat × Symbols :=
  match s.lookup name with
  | some id => (id, s)
  | none => (s.names.size % limit, ⟨s.names.push name⟩)

/-- The name with a given number; `none` for numbers never given out. -/
def resolve (s : Symbols) (id : Nat) : Option String :=
  if id < limit then s.names[id]? else none

def count (s : Symbols) : Nat := s.names.size

/-- Every name has a number of its own. -/
def checkCount (s : Symbols) : Except Halt Unit :=
  if s.count ≤ limit then .ok () else .error .full

/-- Numbers and names in the order of first use. -/
def entries (s : Symbols) : List (Nat × String) :=
  s.names.toList.zipIdx.map fun (name, i) => (i % limit, name)

def ofNames (names : List String) : Symbols :=
  names.foldl (fun s name => (s.intern name).2) {}

/-- The name a constant's payload stands for; a payload that was never given
out is named as such. -/
def nameOf (s : Symbols) (payload : Int) : String :=
  match payload with
  | .ofNat id => (s.resolve id).getD ("BADSYMREF=" ++ payload.repr)
  | .negSucc _ => "BADSYMREF=" ++ payload.repr

/-- A cell as `role:value`, constants by name. -/
def showCell (s : Symbols) (c : Cell) : String :=
  match c.tag with
  | .constant => "c:" ++ s.nameOf c.payload
  | .malformed => "*BAD*=" ++ c.word.toInt.repr
  | _ => c.describe

end Symbols

end HornMachine
