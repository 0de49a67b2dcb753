/-!
# Clauses as sentences

A sentence is a clause before linking: its head element first, then its body
elements. An element is a list of words. An element that starts with `holds` or
`lists` is an equation: it says which structure, or which list, a variable
stands for.
-/
namespace HornMachine

inductive Word
  | const (name : String)
  | number (value : Int)
  | var (name : String)
  /-- The rest of the element is the structure bound to the variable. -/
  | holds (name : String)
  /-- The rest of the element are the items of the list bound to the variable. -/
  | lists (name : String)
deriving DecidableEq, Repr

/-- The words that make an element an equation for a variable. -/
inductive Marker
  | holds
  | lists
deriving DecidableEq, Repr

def Marker.text : Marker → String
  | .holds => "holds"
  | .lists => "lists"

/-- A variable with its marker, as the first word of an equation. -/
def Marker.word (name : String) : Marker → Word
  | .holds => .holds name
  | .lists => .lists name

abbrev Element := List Word

abbrev Sentence := List Element

end HornMachine
