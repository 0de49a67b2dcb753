/-!
# Terms

Owned values read out of the heap: labels, integers and arrays. An array stands
for a structure, its first element being the functor.
-/
namespace HornMachine

inductive Term
  | label (text : String)
  | int (value : Int)
  | array (items : List Term)
deriving Repr

namespace Term

mutual

def decEq : (s t : Term) → Decidable (s = t)
  | .label a, .label b => decidable_of_iff (a = b) (by simp)
  | .int a, .int b => decidable_of_iff (a = b) (by simp)
  | .array a, .array b => @decidable_of_iff _ (a = b) (by simp) (decEqItems a b)
  | .label _, .int _ => isFalse nofun
  | .label _, .array _ => isFalse nofun
  | .int _, .label _ => isFalse nofun
  | .int _, .array _ => isFalse nofun
  | .array _, .label _ => isFalse nofun
  | .array _, .int _ => isFalse nofun

def decEqItems : (ss ts : List Term) → Decidable (ss = ts)
  | [], [] => isTrue rfl
  | [], _ :: _ => isFalse nofun
  | _ :: _, [] => isFalse nofun
  | s :: ss, t :: ts =>
    match decEq s t with
    | isTrue h => @decidable_of_iff _ (ss = ts) (by simp [h]) (decEqItems ss ts)
    | isFalse h => isFalse fun e => h (List.cons.inj e).1

end

instance : DecidableEq Term := decEq

def label? : Term → Option String
  | .label s => some s
  | _ => none

def int? : Term → Option Int
  | .int n => some n
  | _ => none

def items? : Term → Option (List Term)
  | .array ts => some ts
  | _ => none

/-- Element `i` of an array. -/
def arg? (t : Term) (i : Nat) : Option Term := do (← t.items?)[i]?

mutual

/-- Arrays around the most deeply nested element. -/
def depth : Term → Nat
  | .label _ => 0
  | .int _ => 0
  | .array ts => depthItems ts + 1

def depthItems : List Term → Nat
  | [] => 0
  | t :: ts => max (depth t) (depthItems ts)

end

mutual

/-- Number of labels, integers and arrays. -/
def nodes : Term → Nat
  | .label _ => 1
  | .int _ => 1
  | .array ts => nodesItems ts + 1

def nodesItems : List Term → Nat
  | [] => 0
  | t :: ts => nodes t + nodesItems ts

end

end Term

end HornMachine
