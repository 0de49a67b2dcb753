import HornMachine.Term

/-!
# Terms in clause notation

Structures print as `f(a,b)`, the operators `/ - + =` with two arguments infix
in parentheses, and lists built with `.`, `[|]` or `list` in brackets. Along the
spine of a list every element prints at the same depth, so only nesting counts
towards the depth bound; whatever lies deeper prints as `...`.
-/
namespace HornMachine.Term

/-- Nesting beyond this prints as `...`. -/
def maxPrintDepth : Nat := 1000

def isInfix (functor : String) : Bool :=
  functor = "/" || functor = "-" || functor = "+" || functor = "="

def isListFunctor (functor : String) : Bool :=
  functor = "." || functor = "[|]" || functor = "list"

def isListEnd (name : String) : Bool := name = "[]" || name = "nil"

mutual

/-- A term that stands inside `depth` brackets. -/
def printAt (depth : Nat) (t : Term) : String :=
  if maxPrintDepth < depth then "..." else
  match t with
  | .label s => s
  | .int n => n.repr
  | .array [] => "[]"
  | .array [.label "$VAR", .int n] => "_" ++ n.repr
  | .array [.label functor, a, b] =>
    if isInfix functor then
      "(" ++ printAt (depth + 1) a ++ " " ++ functor ++ " " ++ printAt (depth + 1) b ++ ")"
    else if isListFunctor functor then
      "[" ++ printAt (depth + 1) a ++ printTail functor (depth + 1) b ++ "]"
    else
      printAt (depth + 1) (.label functor) ++
        "(" ++ printAt (depth + 1) a ++ "," ++ printAt (depth + 1) b ++ ")"
  | .array (functor :: args) =>
    printAt (depth + 1) functor ++ "(" ++ printArgs (depth + 1) args ++ ")"
termination_by 2 * sizeOf t

/-- What follows an element of a list built with `functor`. -/
def printTail (functor : String) (depth : Nat) (t : Term) : String :=
  match t with
  | .label name => if isListEnd name then "" else "|" ++ printAt depth (.label name)
  | .array [.label f, a, b] =>
    if f = functor then "," ++ printAt depth a ++ printTail functor depth b
    else "|" ++ printAt depth (.array [.label f, a, b])
  | t => "|" ++ printAt depth t
termination_by 2 * sizeOf t + 1

/-- Arguments separated by commas. -/
def printArgs (depth : Nat) (ts : List Term) : String :=
  match ts with
  | [] => ""
  | [t] => printAt depth t
  | t :: u :: ts => printAt depth t ++ "," ++ printArgs depth (u :: ts)
termination_by 2 * sizeOf ts

end

def print (t : Term) : String := printAt 0 t

end HornMachine.Term
