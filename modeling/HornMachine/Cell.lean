/-!
# Tagged heap words

A cell is one signed 64-bit word: a role in the low three bits and a signed
61-bit payload above them. Payloads are addresses, symbol numbers, integer
literals or element counts. All arithmetic on words wraps, so a payload is only
kept up to its residue modulo 2^61.

Both variable roles have a low part below 2, and the three roles whose payload
is an address inside a clause have a low part of at most 2; these are the cells
that move with their clause.
-/
namespace HornMachine

/-- Role of a cell. -/
inductive Tag
  /-- First occurrence of a variable, unbound while it points at itself. -/
  | unboundVar
  /-- Later occurrence of a variable. -/
  | varRef
  /-- Reference to an array header. -/
  | structRef
  /-- Interned symbol. -/
  | constant
  | number
  /-- Element count of the array that follows, functor included. -/
  | arrayHeader
  | malformed
deriving DecidableEq, Repr

def Tag.code : Tag → Int
  | .unboundVar => 0
  | .varRef => 1
  | .structRef => 2
  | .constant => 3
  | .number => 4
  | .arrayHeader => 5
  | .malformed => 7

/-- The role encoded by the low part of a word; 6 and 7 are both malformed. -/
def Tag.ofCode : Nat → Tag
  | 0 => .unboundVar
  | 1 => .varRef
  | 2 => .structRef
  | 3 => .constant
  | 4 => .number
  | 5 => .arrayHeader
  | _ => .malformed

structure Cell where
  word : Int64
deriving DecidableEq, Repr

namespace Cell

def make (tag : Tag) (payload : Int) : Cell :=
  ⟨Int64.ofInt (payload * 8 + tag.code)⟩

def lowBits (c : Cell) : Nat := (c.word.toInt % 8).toNat

def tag (c : Cell) : Tag := Tag.ofCode c.lowBits

def payload (c : Cell) : Int := c.word.toInt / 8

/-- The payload read as an unsigned 64-bit address. -/
def addr (c : Cell) : Nat :=
  if 0 ≤ c.payload then c.payload.toNat else (c.payload + (1 <<< 64)).toNat

def isVar (c : Cell) : Bool := c.lowBits < 2

/-- The payload is an address inside the clause the cell belongs to. -/
def isInternalRef (c : Cell) : Bool := c.lowBits ≤ 2

/-- Shift an internal reference by `base`; every other cell stays as it is. -/
def relocate (c : Cell) (base : Nat) : Cell :=
  if c.isInternalRef then ⟨c.word + Int64.ofInt (base * 8)⟩ else c

def var (addr : Nat) : Cell := make .unboundVar addr
def varRef (addr : Nat) : Cell := make .varRef addr
def structRef (addr : Nat) : Cell := make .structRef addr
def constant (symbol : Nat) : Cell := make .constant symbol
def number (n : Int) : Cell := make .number n
def header (count : Nat) : Cell := make .arrayHeader count
def malformed (hint : Nat) : Cell := make .malformed hint

/-- Order of the signed words. -/
instance : Ord Cell := ⟨fun a b => compare a.word b.word⟩

/-- Role and payload as text; a malformed cell shows its whole word. -/
def describe (c : Cell) : String :=
  match c.tag with
  | .unboundVar => "v:" ++ c.payload.repr
  | .varRef => "u:" ++ c.payload.repr
  | .structRef => "r:" ++ c.payload.repr
  | .constant => "c#" ++ c.payload.repr
  | .number => "n:" ++ c.payload.repr
  | .arrayHeader => "a:" ++ c.payload.repr
  | .malformed => "bad:" ++ c.word.toInt.repr

end Cell

end HornMachine
