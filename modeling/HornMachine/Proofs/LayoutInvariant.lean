import HornMachine.Proofs.SentenceDefects

/-!
# The layout of linked code

The code of a sentence is one block behind the other, in the order of its elements: a
header and a cell for each word that it counts. Variables refer down to a first mention
and structure references to the block of an equation, wherever that was written, so
running the code never meets a placeholder or the inside of a block. The goals are the
blocks that are no equations, and what is copied for the head ends with a block and
refers to nothing behind it.
-/
namespace HornMachine

/-- What a word becomes in code whose constants are numbered in `t`. The number of a
constant is that of its name, which it stands for while numbers are not used again. -/
def Word.BecomesCell (t : Symbols) : Word → Cell → Prop
  | .const name, c => ∃ id, t.lookup name = some id ∧
      (t.count ≤ Symbols.limit → t.resolve id = some name) ∧ c = .constant id
  | .number n, c => c = .number n
  | .var _, c => c.isInternalRef = true
  | .holds _, _ => False
  | .lists _, _ => False

/-- A block is a header that counts the cells behind it. -/
def blockCells (cs : List Cell) : List Cell := .header cs.length :: cs

namespace ClauseCode

/-- The code is laid out as the blocks of the elements `es`. -/
structure LaidOut (t : Symbols) (es : Sentence) (code : ClauseCode) : Prop where
  /-- There is a block for each element, with a cell for each word behind the marker. -/
  blocks : ∃ bodies, List.Forall₂ (fun e => List.Forall₂ (Word.BecomesCell t) (contentOf e))
    es bodies ∧ code.cells.toList = bodies.flatMap blockCells
  /-- A variable refers to its first occurrence, which is unbound. -/
  var : ∀ (a : Nat) (c : Cell), code.cells[a]? = some c → c.isVar = true →
    c.addr ≤ a ∧ code.cells[c.addr]? = some (.var c.addr)
  /-- A reference leads to the header of an equation. -/
  ref : ∀ (a : Nat) (c : Cell), code.cells[a]? = some c → c.tag = .structRef →
    ∃ name words, BlockAt es c.addr (.holds name :: words) ∧
      code.cells[c.addr]? = some (.header words.length)
  resolved : ∀ (a : Nat) (c : Cell), code.cells[a]? = some c → c.tag ≠ .malformed
  goals : code.goals = (goalsFrom 0 es).map .structRef
  /-- The body starts with the block of a goal, if there is any. -/
  neck : code.neck = code.size ∨ ∃ e, BlockAt es code.neck e ∧ isEquation e = false
  /-- No cell that is copied for the head refers to one that is not. -/
  closed : ∀ (a : Nat) (c : Cell), a < code.headLen → code.cells[a]? = some c →
    c.isInternalRef = true → c.addr < code.headLen
  /-- A block is copied for the head as a whole or not at all. -/
  whole : ∀ o e, BlockAt es o e → o < code.headLen → o + blockSize e ≤ code.headLen

end ClauseCode

variable {t : Symbols} {es : Sentence} {o a : Nat} {e : Element} {w : Word}

namespace Layout

theorem isInternalRef_resolve (l : Layout) (name : String) (a : Nat) :
    (l.resolve name a).isInternalRef = true := by
  rw [Cell.isInternalRef_iff, Cell.isVar_iff]
  unfold resolve
  split
  · exact .inr (Cell.tag_structRef _)
  · split
    · split
      · exact .inl (.inl (Cell.tag_var _))
      · exact .inl (.inr (Cell.tag_varRef _))
    · exact .inl (.inl (Cell.tag_var _))

theorem becomesCell_slotCell (l : Layout) (a : Nat) (plain : w.Plain t) :
    w.BecomesCell t (l.slotCell a (Slot.of t w)) := by
  cases w with
  | const name =>
    obtain ⟨id, found⟩ := plain
    exact ⟨id, found, fun room => Symbols.resolve_of_lookup room found,
      by rw [Slot.of, found]; rfl⟩
  | number n => rfl
  | var name => exact l.isInternalRef_resolve name a
  | holds _ => exact plain.elim
  | lists _ => exact plain.elim

theorem toList_cells (l : Layout) : l.cells.toList = l.slots.toList.mapIdx l.slotCell := by
  rw [cells, Array.toList_mapIdx]
  rfl

theorem becomesCell_mapIdx (l : Layout) (f : Nat → Nat) {ws : List Word}
    (plain : ∀ w ∈ ws, w.Plain t) : List.Forall₂ (Word.BecomesCell t) ws
      ((ws.map (Slot.of t)).mapIdx fun i => l.slotCell (f i)) := by
  induction ws generalizing f with
  | nil => exact .nil
  | cons w ws ih =>
    obtain ⟨first, rest⟩ := List.forall_mem_cons.mp plain
    rw [List.map_cons, List.mapIdx_cons]
    exact .cons (l.becomesCell_slotCell (f 0) first) (ih (fun i => f (i + 1)) rest)

/-- The cells of elements are the blocks of their words, one behind the other, at whatever
addresses they are placed. -/
theorem exists_bodies (l : Layout) (f : Nat → Nat)
    (plain : ∀ w ∈ es.flatMap contentOf, w.Plain t) :
    ∃ bodies, List.Forall₂ (fun e => List.Forall₂ (Word.BecomesCell t) (contentOf e)) es bodies ∧
      (es.flatMap (blockOf t)).mapIdx (fun i => l.slotCell (f i)) =
        bodies.flatMap blockCells := by
  induction es generalizing f with
  | nil => exact ⟨[], .nil, rfl⟩
  | cons e es ih =>
    rw [List.flatMap_cons] at plain
    obtain ⟨bodies, later, cells⟩ := ih (fun i => f (i + (blockOf t e).length))
      fun w member => plain w (List.mem_append_right _ member)
    have first := l.becomesCell_mapIdx (fun i => f (i + 1))
      fun w (member : w ∈ contentOf e) => plain w (List.mem_append_left _ member)
    refine ⟨_, .cons first later, ?_⟩
    rw [List.flatMap_cons, List.mapIdx_append, cells, List.flatMap_cons, blockOf,
      List.mapIdx_cons, blockCells, List.length_mapIdx, List.length_map]
    rfl

/-- A reference in the code is the cell of a variable with an equation. -/
theorem exists_equation {c : Cell} (small : (layoutOf t es).slots.size < 2 ^ 60)
    (plain : ∀ w ∈ es.flatMap contentOf, w.Plain t)
    (found : (layoutOf t es).cells[a]? = some c) (tag : c.tag = .structRef) :
    ∃ name words, BlockAt es c.addr (.holds name :: words) ∧
      (layoutOf t es).cells[c.addr]? = some (.header words.length) := by
  rcases plain_cell_cases plain found with ⟨e, -, rfl⟩ | cell
  · simp at tag
  · cases cell with
    | const _ | number _ => simp at tag
    | mention _ _ => split at tag <;> simp at tag
    | @equation f name ws block =>
      have inside := block.end_le t
      rw [Cell.addr_structRef (by omega)]
      exact ⟨name, ws, block, header_cell block t⟩

/-- What the head copy holds of a block is all of it. -/
theorem block_le_headLen {head : Element} {body : Sentence} (goal : isEquation head = false)
    (block : BlockAt (head :: body) o e) (inside : o < (layoutOf t (head :: body)).code.headLen) :
    o + blockSize e ≤ (layoutOf t (head :: body)).code.headLen := by
  have bound := block.end_le t
  rw [← size_code] at bound
  unfold ClauseCode.headLen at inside ⊢
  split at inside
  · next reaches =>
    rw [if_pos reaches]
    exact bound
  · next apart =>
    rw [if_neg apart]
    change o < (layoutOf t (head :: body)).neck at inside
    change o + blockSize e ≤ (layoutOf t (head :: body)).neck
    rcases neck_cases (t := t) body goal with last | ⟨o', e', next, -, start⟩
    · rwa [last, ← size_code]
    · rw [start] at inside ⊢
      exact block.disjoint (next.cons head) inside

end Layout

/-- Whatever sentence links, its code is laid out as the blocks of its elements, with lists
expanded. Like a heap, code has fewer than 2^60 cells. -/
theorem Sentence.laidOut_of_ofSentence {s : Sentence} {symbols : Symbols} {code : ClauseCode}
    (linked : (ClauseCode.ofSentence s symbols).1 = .ok code) (fits : code.size < 2 ^ 60) :
    ∃ es, s.expandLists = .ok es ∧ code.LaidOut (ClauseCode.ofSentence s symbols).2 es := by
  obtain ⟨es, expanded, -, links⟩ := Linking.link_links (Prod.ext linked rfl)
  obtain ⟨valid, rfl, plain, ⟨head, body, rfl, goal⟩, -⟩ := links _ (.refl _)
  rw [Layout.size_code] at fits
  have accepted := ClauseCode.validate_eq_ok.mp valid
  refine ⟨_, expanded, ?_, (Layout.bare_linked fits plain).var,
    fun _ _ => Layout.exists_equation fits plain,
    fun a c found => (accepted.cell a c found).resolved, ?_, ?_,
    fun _ _ => accepted.addr_lt (.inl rfl), fun _ _ => Layout.block_le_headLen goal⟩
  · obtain ⟨bodies, become, cells⟩ := (layoutOf _ (head :: body)).exists_bodies id plain
    exact ⟨bodies, become, (Layout.toList_cells _).trans cells⟩
  · simp [Layout.code, layoutOf]
  · rw [Layout.size_code]
    rcases Layout.neck_cases body goal with last | ⟨o, e, block, other, start⟩
    · exact .inl last
    · have neck : (layoutOf _ (head :: body)).code.neck = blockSize head + o := start
      exact .inr ⟨e, neck ▸ block.cons head, other⟩

/-- The code of `p X Y if X holds f L and q Y X and L lists X 3`, whose two equations refer
to each other across the goal. -/
def tiedCode : ClauseCode where
  cells := #[.header 3, .constant 0, .structRef 4, .var 3,
    .header 2, .constant 1, .structRef 11,
    .header 3, .constant 2, .varRef 3, .structRef 4,
    .header 3, .constant 3, .structRef 4, .structRef 15,
    .header 3, .constant 3, .number 3, .constant 4]
  goals := [.structRef 0, .structRef 7]
  neck := 7

theorem Sentence.laidOut_of_ofSentence_tied :
    (ClauseCode.ofSentence [[.const "p", .var "X", .var "Y"], [.holds "X", .const "f", .var "L"],
      [.const "q", .var "Y", .var "X"], [.lists "L", .var "X", .number 3]] ⟨#[]⟩).1 =
        .ok tiedCode ∧
    tiedCode.size < 2 ^ 60 ∧ tiedCode.headLen = tiedCode.size ∧
    ∃ t es, es.length = 5 ∧ tiedCode.LaidOut t es := by
  have linked : (ClauseCode.ofSentence [[.const "p", .var "X", .var "Y"],
      [.holds "X", .const "f", .var "L"], [.const "q", .var "Y", .var "X"],
      [.lists "L", .var "X", .number 3]] ⟨#[]⟩).1 = .ok tiedCode := by
    decide +kernel
  have fits : tiedCode.size < 2 ^ 60 := by decide
  obtain ⟨es, expanded, laidOut⟩ := Sentence.laidOut_of_ofSentence linked fits
  cases expanded
  exact ⟨linked, fits, by decide +kernel, _, _, rfl, laidOut⟩

end HornMachine
