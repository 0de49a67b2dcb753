import HornMachine.Term.Notation
import HornMachine.Proofs.SentenceFormat
import Mathlib.Data.List.Basic

/-!
# The text of a term

A term whose labels are words and operators is printed in one of six ways: as a label, as
a number, as `[]`, infix between parentheses, as a list, or as a functor with its arguments.
`text` is what is written if nothing is nested too deeply. Up to the depth bound it is what
the printer prints; beyond it the printer writes dots, which are in no such text.

A list counts as one bracket however long it is, for its elements are printed at one depth.
-/
namespace HornMachine.Term

def isNameChar (c : Char) : Bool := c.isAlphanum || c = '_'

/-- A word of letters, digits and `_` that starts with a letter. -/
def isWord (s : String) : Bool :=
  match s.toList with
  | [] => false
  | c :: cs => c.isAlpha && cs.all isNameChar

/-- Every label is a word or an operator. -/
inductive WellLabelled : Term → Prop
  | label {s : String} : isWord s ∨ isInfix s → WellLabelled (.label s)
  | int (n : Int) : WellLabelled (.int n)
  | array {ts : List Term} : (∀ t ∈ ts, WellLabelled t) → WellLabelled (.array ts)

/-- A list cell of `functor`. -/
def isCell (functor : String) : Term → Bool
  | .array [.label f, _, _] => f = functor
  | _ => false

def isEnd : Term → Bool
  | .label name => isListEnd name
  | _ => false

mutual

/-- Brackets around the innermost part of a term that is printed. -/
def nesting : Term → Nat
  | .label _ => 0
  | .int _ => 0
  | .array [] => 0
  | .array [.label "$VAR", .int _] => 0
  | .array [.label functor, a, b] =>
    if isListFunctor functor then
      max (nesting a) (if isCell functor b then nesting b - 1 else nesting b) + 1
    else max (nesting a) (nesting b) + 1
  | .array (functor :: args) => max (nesting functor) (nestingItems args) + 1

def nestingItems : List Term → Nat
  | [] => 0
  | t :: ts => max (nesting t) (nestingItems ts)

end

mutual

/-- The text of a term with such labels, however deeply it is nested. -/
def text : Term → List Char
  | .label s => s.toList
  | .int n => n.repr.toList
  | .array [] => ['[', ']']
  | .array [.label functor, a, b] =>
    if isInfix functor then
      '(' :: (text a ++ ' ' :: (functor.toList ++ ' ' :: (text b ++ [')'])))
    else if functor = "list" then
      '[' :: (text a ++
        if isEnd b then [']']
        else if isCell "list" b then ',' :: (text b).tail
        else '|' :: (text b ++ [']']))
    else functor.toList ++ '(' :: (text a ++ ',' :: (text b ++ [')']))
  | .array (functor :: args) => text functor ++ '(' :: ((textItems args).tail ++ [')'])

/-- Items, a comma before each. -/
def textItems : List Term → List Char
  | [] => []
  | t :: ts => ',' :: (text t ++ textItems ts)

end

/-- What follows an element of a list, the closing bracket included. -/
def textTail (t : Term) : List Char :=
  if isEnd t then [']']
  else if isCell "list" t then ',' :: (text t).tail
  else '|' :: (text t ++ [']'])

variable {f a b t u : Term} {ts us args : List Term} {s op : String} {x y : List Char} {c : Char}
  {d : Nat}

theorem WellLabelled.named (well : WellLabelled (.label s)) : isWord s ∨ isInfix s := by
  cases well with
  | label named => exact named

theorem WellLabelled.items (well : WellLabelled (.array ts)) : ∀ t ∈ ts, WellLabelled t := by
  cases well with
  | array items => exact items

theorem exists_of_isCell (cell : isCell "list" t = true) :
    ∃ a b, t = .array [.label "list", a, b] := by
  unfold isCell at cell
  split at cell
  · obtain rfl := of_decide_eq_true cell
    exact ⟨_, _, rfl⟩
  · cases cell

theorem exists_of_isEnd (ends : isEnd t = true) : ∃ name, t = .label name ∧ isListEnd name := by
  unfold isEnd at ends
  split at ends
  · exact ⟨_, rfl, ends⟩
  · cases ends

/-! ### The ways to write an array -/

/-- A functor that stands before its arguments. -/
def Calls (f : Term) (args : List Term) : Prop :=
  ∀ name a b, f = .label name → args = [a, b] → isInfix name = false ∧ name ≠ "list"

/-- The ways in which an array is written. -/
inductive Form : List Term → Prop
  | empty : Form []
  | operation {op : String} (a b : Term) : isInfix op → Form [.label op, a, b]
  | list (a b : Term) : Form [.label "list", a, b]
  | call {f : Term} {args : List Term} : Calls f args → Form (f :: args)

theorem form (ts : List Term) : Form ts := by
  match ts with
  | [] => exact .empty
  | f :: args =>
    by_cases calls : Calls f args
    · exact .call calls
    · simp only [Calls, not_forall, not_and_or, Bool.not_eq_false, ne_eq, not_not] at calls
      obtain ⟨name, a, b, rfl, rfl, operator | rfl⟩ := calls
      · exact .operation a b operator
      · exact .list a b

theorem text_empty : text (.array []) = ['[', ']'] := by
  rw [text]

theorem text_operation (operator : isInfix op) :
    text (.array [.label op, a, b]) =
      '(' :: (text a ++ ' ' :: (op.toList ++ ' ' :: (text b ++ [')']))) := by
  rw [text, if_pos operator]

theorem text_list : text (.array [.label "list", a, b]) = '[' :: (text a ++ textTail b) := by
  rw [text, if_neg (by decide), if_pos rfl]
  rfl

theorem Calls.cases (calls : Calls f args) :
    (∃ name a b, f = .label name ∧ args = [a, b] ∧ isInfix name = false ∧ name ≠ "list") ∨
      ∀ name a b, f = .label name → args = [a, b] → False := by
  by_cases two : ∃ name a b, f = .label name ∧ args = [a, b]
  · obtain ⟨name, a, b, functor, items⟩ := two
    exact .inl ⟨name, a, b, functor, items, calls name a b functor items⟩
  · exact .inr fun name a b functor items => two ⟨name, a, b, functor, items⟩

theorem text_call (calls : Calls f args) :
    text (.array (f :: args)) = text f ++ '(' :: ((textItems args).tail ++ [')']) := by
  rcases calls.cases with ⟨name, a, b, rfl, rfl, operator, list⟩ | other
  · simp [text, textItems, operator, list]
  · rw [text]
    exact other

/-! ### Printing within the bound -/

theorem isListFunctor_eq_false_of_isInfix (operator : isInfix op) : isListFunctor op = false := by
  simp only [isInfix, Bool.or_eq_true, decide_eq_true_eq] at operator
  obtain ((rfl | rfl) | rfl) | rfl := operator <;> decide

theorem nesting_operation (operator : isInfix op) :
    nesting (.array [.label op, a, b]) = max (nesting a) (nesting b) + 1 := by
  rw [nesting, if_neg (by rw [isListFunctor_eq_false_of_isInfix operator]; nofun)]

theorem nesting_list : nesting (.array [.label "list", a, b]) =
    max (nesting a) (if isCell "list" b then nesting b - 1 else nesting b) + 1 := by
  rw [nesting, if_pos (by decide)]

theorem WellLabelled.ne_var (well : WellLabelled f) : f ≠ .label "$VAR" := by
  rintro rfl
  exact absurd well.named (by decide)

theorem WellLabelled.isListFunctor_eq_false {s : String} (well : WellLabelled (.label s))
    (list : s ≠ "list") : isListFunctor s = false := by
  simp only [isListFunctor, Bool.or_eq_false_iff, decide_eq_false_iff_not]
  refine ⟨⟨?_, ?_⟩, list⟩
  · rintro rfl
    exact absurd well.named (by decide)
  · rintro rfl
    exact absurd well.named (by decide)

theorem nesting_call (calls : Calls f args) (well : WellLabelled f) :
    nesting (.array (f :: args)) = max (nesting f) (nestingItems args) + 1 := by
  rcases calls.cases with ⟨name, a, b, rfl, rfl, -, list⟩ | other
  · simp [nesting, nestingItems, well.isListFunctor_eq_false list]
  · rw [nesting]
    · exact fun _ var _ => well.ne_var var
    · exact other

theorem printAt_operation (within : d ≤ maxPrintDepth) (operator : isInfix op) :
    printAt d (.array [.label op, a, b]) =
      "(" ++ printAt (d + 1) a ++ " " ++ op ++ " " ++ printAt (d + 1) b ++ ")" := by
  rw [printAt, if_neg (Nat.not_lt.mpr within)]
  simp only [operator, if_true]

theorem printAt_list (within : d ≤ maxPrintDepth) :
    printAt d (.array [.label "list", a, b]) =
      "[" ++ printAt (d + 1) a ++ printTail "list" (d + 1) b ++ "]" := by
  rw [printAt, if_neg (Nat.not_lt.mpr within)]
  rfl

theorem printAt_call (within : d ≤ maxPrintDepth) (calls : Calls f args) (well : WellLabelled f) :
    printAt d (.array (f :: args)) =
      printAt (d + 1) f ++ "(" ++ printArgs (d + 1) args ++ ")" := by
  rcases calls.cases with ⟨name, a, b, rfl, rfl, operator, list⟩ | other
  · conv_lhs => rw [printAt, if_neg (Nat.not_lt.mpr within)]
    simp [operator, well.isListFunctor_eq_false list, printArgs, String.append_assoc]
  · rw [printAt, if_neg (Nat.not_lt.mpr within)]
    · exact fun _ var _ => well.ne_var var
    · exact other

theorem toList_printTail (within : d ≤ maxPrintDepth) (t : Term) :
    (printTail "list" (d + 1) t).toList ++ [']'] =
      if isEnd t then [']']
      else if isCell "list" t then ',' :: (printAt d t).toList.tail
      else '|' :: ((printAt (d + 1) t).toList ++ [']']) := by
  unfold printTail
  split
  · rename_i name
    rw [isEnd]
    split
    · rfl
    · simp [isCell]
  · rename_i f a b
    by_cases same : f = "list"
    · subst same
      simp [isEnd, isCell, printAt_list within]
    · simp [isEnd, isCell, same]
  · rename_i label cell
    have atEnd : isEnd t = false := by
      unfold isEnd
      split
      · exact absurd rfl (label _)
      · rfl
    have other : isCell "list" t = false := by
      unfold isCell
      split
      · exact absurd rfl (cell _ _ _)
      · rfl
    simp [atEnd, other]

theorem toList_printArgs (ts : List Term)
    (printed : ∀ t ∈ ts, (printAt d t).toList = text t) :
    (printArgs d ts).toList = (textItems ts).tail := by
  induction ts with
  | nil => rw [printArgs]; rfl
  | cons t ts ih =>
    obtain ⟨first, others⟩ := List.forall_mem_cons.mp printed
    cases ts with
    | nil => simp [printArgs, textItems, first]
    | cons u us => simp [printArgs, textItems, first, ih others]

theorem nesting_le_nestingItems (member : t ∈ ts) : nesting t ≤ nestingItems ts := by
  induction member with
  | head ts => exact Nat.le_max_left ..
  | tail u _ ih => exact Nat.le_trans ih (Nat.le_max_right ..)

/-- Within the depth bound a term prints as its whole text. -/
theorem WellLabelled.toList_printAt (well : WellLabelled t) :
    ∀ d, d + nesting t ≤ maxPrintDepth → (printAt d t).toList = text t := by
  induction well with
  | label _ =>
    intro d within
    rw [printAt, if_neg (by omega), text]
  | int n =>
    intro d within
    rw [printAt, if_neg (by omega), text]
  | @array ts wells ih =>
    intro d within
    have inside : d ≤ maxPrintDepth := by omega
    cases form ts with
    | empty =>
      rw [printAt, if_neg (by omega), text_empty]
      rfl
    | operation a b operator =>
      rw [nesting_operation operator] at within
      have left := ih a (by simp) (d + 1) (by omega)
      have right := ih b (by simp) (d + 1) (by omega)
      simp [printAt_operation inside operator, text_operation operator, left, right]
    | list a b =>
      rw [nesting_list] at within
      have left := ih a (by simp) (d + 1) (by omega)
      have right : (printTail "list" (d + 1) b).toList ++ [']'] = textTail b := by
        rw [toList_printTail inside, textTail]
        split at within
        · rw [ih b (by simp) d (by omega)]
          simp only [*, if_true]
        · rw [ih b (by simp) (d + 1) (by omega)]
          simp only [*, Bool.false_eq_true, if_false]
      simp [printAt_list inside, text_list, left, ← right]
    | call calls =>
      have functor := wells _ (List.mem_cons_self ..)
      rw [nesting_call calls functor] at within
      obtain ⟨first, others⟩ := List.forall_mem_cons.mp ih
      have first := first (d + 1) (by omega)
      have rest := toList_printArgs _ fun t member =>
        others t member (d + 1) (by have := nesting_le_nestingItems member; omega)
      simp [printAt_call inside calls functor, text_call calls, first, rest]

/-! ### The characters of labels and numbers -/

/-- A character of a word, an operator or a number. -/
def isTokenChar (c : Char) : Bool :=
  isNameChar c || c = '/' || c = '-' || c = '+' || c = '='

theorem exists_numeral (n : Int) : ∃ cs k, Numeral cs k ∧
    (n.repr.toList = cs ∧ n = k ∨ n.repr.toList = '-' :: cs ∧ n = -k) := by
  rw [Int.repr_eq_if]
  split
  · exact ⟨_, n.toNat, numeral_repr _, .inl ⟨rfl, by omega⟩⟩
  · exact ⟨_, (-n).toNat, numeral_repr _, .inr ⟨by rw [String.toList_append]; rfl, by omega⟩⟩

theorem isTokenChar_of_mem_repr {n : Int} {c : Char} (member : c ∈ n.repr.toList) :
    isTokenChar c = true := by
  have token {c : Char} (digit : c.isDigit = true) : isTokenChar c = true := by
    simp [isTokenChar, isNameChar, Char.isAlphanum, digit]
  obtain ⟨cs, k, numeral, ⟨same, -⟩ | ⟨same, -⟩⟩ := exists_numeral n
  · exact token (numeral.digit c (same ▸ member))
  · rcases List.mem_cons.mp (same ▸ member) with rfl | member
    · decide
    · exact token (numeral.digit c member)

theorem exists_of_isWord (word : isWord s) :
    ∃ c cs, s.toList = c :: cs ∧ c.isAlpha = true ∧ ∀ d ∈ cs, isNameChar d = true := by
  unfold isWord at word
  split at word
  · cases word
  · rename_i c cs same
    rw [Bool.and_eq_true, List.all_eq_true] at word
    exact ⟨c, cs, same, word⟩

theorem exists_of_isInfix (operator : isInfix s) :
    ∃ c, s.toList = [c] ∧ (((c = '/' ∨ c = '-') ∨ c = '+') ∨ c = '=') := by
  simp only [isInfix, Bool.or_eq_true, decide_eq_true_eq] at operator
  obtain ((rfl | rfl) | rfl) | rfl := operator <;> exact ⟨_, rfl, by decide⟩

theorem WellLabelled.isTokenChar_of_mem (well : WellLabelled (.label s)) {c : Char}
    (member : c ∈ s.toList) : isTokenChar c = true := by
  rcases well.named with word | operator
  · obtain ⟨d, ds, same, alpha, rest⟩ := exists_of_isWord word
    rcases List.mem_cons.mp (same ▸ member) with rfl | member
    · simp [isTokenChar, isNameChar, Char.isAlphanum, alpha]
    · simp [isTokenChar, rest c member]
  · obtain ⟨d, same, symbol⟩ := exists_of_isInfix operator
    obtain rfl := List.mem_singleton.mp (same ▸ member)
    obtain ((rfl | rfl) | rfl) | rfl := symbol <;> decide

/-! ### Elision -/

theorem dot_notMem_textItems (items : ∀ t ∈ ts, '.' ∉ text t) : '.' ∉ textItems ts := by
  induction ts with
  | nil => nofun
  | cons t ts ih =>
    obtain ⟨first, others⟩ := List.forall_mem_cons.mp items
    simp [textItems, first, ih others]

theorem WellLabelled.dot_notMem_text (well : WellLabelled t) : '.' ∉ text t := by
  induction well with
  | @label s named =>
    intro dot
    exact absurd ((WellLabelled.label named).isTokenChar_of_mem dot) (by decide)
  | int n =>
    intro dot
    exact absurd (isTokenChar_of_mem_repr dot) (by decide)
  | @array ts wells ih =>
    cases form ts with
    | empty => decide
    | @operation op a b operator =>
      have name : '.' ∉ op.toList := fun dot =>
        absurd ((wells (.label op) (by simp)).isTokenChar_of_mem dot) (by decide)
      simp [text_operation operator, ih a (by simp), ih b (by simp), name]
    | list a b =>
      have right := ih b (by simp)
      have tail : '.' ∉ textTail b := by
        rw [textTail]
        split
        · decide
        · split
          · intro dot
            exact right (List.mem_of_mem_tail ((List.mem_cons.mp dot).resolve_left nofun))
          · simp [right]
      simp [text_list, ih a (by simp), tail]
    | @call f args calls =>
      obtain ⟨functor, others⟩ := List.forall_mem_cons.mp ih
      have rest : '.' ∉ (textItems args).tail := fun dot =>
        dot_notMem_textItems others (List.mem_of_mem_tail dot)
      simp [text_call calls, functor, rest]

theorem exists_of_lt_nestingItems {n : Nat} (deep : n < nestingItems ts) :
    ∃ t ∈ ts, n < nesting t := by
  induction ts with
  | nil => cases deep
  | cons t ts ih =>
    rw [nestingItems] at deep
    by_cases first : n < nesting t
    · exact ⟨t, List.mem_cons_self .., first⟩
    · obtain ⟨u, member, deep⟩ := ih (by omega)
      exact ⟨u, List.mem_cons_of_mem _ member, deep⟩

theorem mem_printArgs {c : Char} (member : t ∈ ts) (inside : c ∈ (printAt d t).toList) :
    c ∈ (printArgs d ts).toList := by
  induction ts with
  | nil => cases member
  | cons u us ih =>
    cases us with
    | nil =>
      obtain rfl := List.mem_singleton.mp member
      rwa [printArgs]
    | cons v us =>
      rw [printArgs, String.toList_append, String.toList_append, List.mem_append, List.mem_append]
      rcases List.mem_cons.mp member with rfl | member
      · exact .inl (.inl inside)
      · exact .inr (ih member)

theorem dot_mem_printTail (within : d < maxPrintDepth)
    (inner : ∀ d, maxPrintDepth < d + nesting b → '.' ∈ (printAt d b).toList)
    (past : maxPrintDepth < d + 1 + if isCell "list" b then nesting b - 1 else nesting b) :
    '.' ∈ (printTail "list" (d + 1) b).toList := by
  have closed : '.' ∈ (printTail "list" (d + 1) b).toList ++ [']'] := by
    rw [toList_printTail (Nat.le_of_lt within)]
    split at past
    · rename_i cell
      obtain ⟨a', b', rfl⟩ := exists_of_isCell cell
      have dot := inner d (by rw [nesting_list] at past ⊢; omega)
      rw [printAt_list (Nat.le_of_lt within)] at dot ⊢
      simpa [isEnd, isCell] using dot
    · split
      · rename_i ends
        obtain ⟨name, rfl, -⟩ := exists_of_isEnd ends
        rw [nesting] at past
        omega
      · simp [inner (d + 1) past]
  exact (List.mem_append.mp closed).resolve_right (by decide)

theorem WellLabelled.dot_mem_printAt (well : WellLabelled t) :
    ∀ d, maxPrintDepth < d + nesting t → '.' ∈ (printAt d t).toList := by
  have beyond {d : Nat} {t : Term} (past : maxPrintDepth < d) : '.' ∈ (printAt d t).toList := by
    rw [printAt.eq_def, if_pos past]
    decide
  induction well with
  | label _ => exact fun d past => beyond past
  | int n => exact fun d past => beyond past
  | @array ts wells ih =>
    intro d past
    rcases Nat.lt_or_ge maxPrintDepth d with deeper | within
    · exact beyond deeper
    cases form ts with
    | empty => exact beyond past
    | operation a b operator =>
      rw [nesting_operation operator] at past
      rcases Nat.le_total (nesting a) (nesting b) with deep | deep
      · have dot := ih b (by simp) (d + 1) (by omega)
        simp [printAt_operation within operator, dot]
      · have dot := ih a (by simp) (d + 1) (by omega)
        simp [printAt_operation within operator, dot]
    | list a b =>
      rw [nesting_list] at past
      rcases Nat.lt_or_ge maxPrintDepth (d + 1 + nesting a) with left | left
      · simp [printAt_list within, ih a (by simp) (d + 1) left]
      · have inside : d < maxPrintDepth := by omega
        have dot := dot_mem_printTail inside (ih b (by simp)) (by omega)
        simp [printAt_list within, dot]
    | @call f args calls =>
      have well := wells f (List.mem_cons_self ..)
      rw [nesting_call calls well] at past
      rcases Nat.lt_or_ge maxPrintDepth (d + 1 + nesting f) with first | first
      · simp [printAt_call within calls well, ih f (List.mem_cons_self ..) (d + 1) first]
      · obtain ⟨u, member, deep⟩ := exists_of_lt_nestingItems
          (show maxPrintDepth - (d + 1) < nestingItems args by omega)
        have dot := mem_printArgs member (ih u (List.mem_cons_of_mem _ member) (d + 1) (by omega))
        simp [printAt_call within calls well, dot]

/-- The printer elides exactly the terms that are nested deeper than it goes. -/
theorem dot_mem_print_iff (well : WellLabelled t) :
    '.' ∈ t.print.toList ↔ maxPrintDepth < nesting t := by
  refine ⟨fun dot => ?_, fun deep => well.dot_mem_printAt 0 (by omega)⟩
  by_contra within
  rw [print, well.toList_printAt 0 (by omega)] at dot
  exact well.dot_notMem_text dot

end HornMachine.Term
