import HornMachine.Proofs.CellWords
import HornMachine.Proofs.SentenceDefects
import HornMachine.Proofs.UnificationTurn

/-!
# The numbers of a sentence

Linking puts a cell in the place of each number, in order, those among the items of lists
included. A cell keeps 61 bits, and no number is refused: numbers from `-2^60` to
`2^60 - 1` stay what they are, and any other comes out as the one of these that is the same
modulo `2^61`. So two numbers have one cell, and unify, if they differ by a multiple
of `2^61`.
-/
namespace HornMachine

def Word.number? : Word → Option Int
  | .number n => some n
  | _ => none

/-- The numbers among the words of a sentence, in order. -/
def Sentence.numbers (s : Sentence) : List Int := s.flatten.filterMap Word.number?

/-- The cells with the role of a number, in order. -/
def ClauseCode.numberCells (code : ClauseCode) : List Cell :=
  code.cells.toList.filter (·.tag = .number)

/-! ### Numbers in cells -/

namespace Cell

theorem payload_number_eq_self {n : Int} :
    (number n).payload = n ↔ -2 ^ 60 ≤ n ∧ n < 2 ^ 60 := by
  constructor
  · intro kept
    have lower := (number n).le_payload
    have upper := (number n).payload_lt
    omega
  · rintro ⟨lower, upper⟩
    exact payload_make lower upper

theorem number_eq_number {n m : Int} : number n = number m ↔ (2 ^ 61 : Int) ∣ n - m := by
  rw [number, number, make_eq_make]
  exact and_iff_right rfl

end Cell

theorem Store.unify_numbers (st : Store) (fuel boundary : Nat) (n m : Int) :
    st.unify (fuel + 1) boundary (.number n) (.number m) =
      .ok (decide (Cell.number n = .number m), st) := by
  have plain (n : Int) : (Cell.number n).isVar = false :=
    Cell.not_isVar_of_tag (Cell.tag_number n) (by decide) (by decide)
  rw [unify, unifyAll, Heap.deref_of_value (plain n), Heap.deref_of_value (plain m),
    Halt.ok_bind, Halt.ok_bind]
  by_cases same : Cell.number n = .number m
  · rw [if_pos same, decide_eq_true same, unifyAll]
  · simp [same, plain]

/-! ### Numbers in sentences -/

namespace Sentence

variable {s es : Sentence} {t : Symbols}

theorem numbers_append (s s' : Sentence) : numbers (s ++ s') = numbers s ++ numbers s' := by
  rw [numbers, List.flatten_append, List.filterMap_append, numbers, numbers]

theorem numbers_cons (e : Element) (s : Sentence) :
    numbers (e :: s) = e.filterMap Word.number? ++ numbers s := by
  rw [numbers, List.flatten_cons, List.filterMap_append, numbers]

theorem numbers_listChain (name : String) (i : Nat) (items : List Word) :
    numbers (listChain name i items) = items.filterMap Word.number? := by
  induction items generalizing i with
  | nil => rfl
  | cons item items ih =>
    have first (rest : Word) (other : rest.number? = none) :
        List.filterMap Word.number? [.holds (restName name i), .const "list", item, rest] =
          [item].filterMap Word.number? := by
      rw [List.filterMap_cons_none rfl, List.filterMap_cons_none rfl, ← List.singleton_append,
        List.filterMap_append, List.filterMap_cons_none other]
      exact List.append_nil _
    cases items with
    | nil =>
      rw [listChain, numbers_cons, first _ rfl]
      exact List.append_nil _
    | cons next items =>
      rw [listChain, numbers_cons, first _ rfl, ih, ← List.filterMap_append,
        List.singleton_append]

theorem numbers_expanded (s : Sentence) : numbers (s.flatMap expansion) = numbers s := by
  have element (e : Element) : numbers (expansion e) = e.filterMap Word.number? := by
    rcases expansion_cases e with ⟨single, -⟩ | ⟨name, words, rfl, expanded⟩
    · rw [single]
      exact (numbers_cons e []).trans (List.append_nil _)
    · rw [expanded, numbers_listChain]
      rfl
  induction s with
  | nil => rfl
  | cons e s ih => rw [List.flatMap_cons, numbers_append, element, ih, numbers_cons]

end Sentence

/-! ### Numbers in code -/

/-- The number a slot holds for good. -/
def Slot.number? : Slot → Option Cell
  | .fixed c => if c.tag = .number then some c else none
  | .variable _ => none

namespace Layout

/-- Cells that are numbers exactly where the slots hold some are those numbers, in order. -/
theorem filter_mapIdx {slots : List Slot} {f : Nat → Slot → Cell}
    (each : ∀ a slot, (if (f a slot).tag = .number then some (f a slot) else none) =
      slot.number?) :
    (slots.mapIdx f).filter (·.tag = .number) = slots.filterMap Slot.number? := by
  induction slots generalizing f with
  | nil => rfl
  | cons slot slots ih =>
    rw [List.mapIdx_cons, List.filterMap_cons, List.filter_cons, ← each 0 slot,
      ih fun a => each (a + 1)]
    by_cases number : (f 0 slot).tag = .number <;> simp [number]

theorem numberCells_code (l : Layout) :
    l.code.numberCells = l.slots.toList.filterMap Slot.number? := by
  have cells : l.code.cells.toList = l.slots.toList.mapIdx l.slotCell := by
    apply List.ext_getElem?
    intro a
    rw [Array.getElem?_toList, List.getElem?_mapIdx, Array.getElem?_toList]
    exact getElem?_cells l a
  have slot (a : Nat) (slot : Slot) :
      (if (l.slotCell a slot).tag = .number then some (l.slotCell a slot) else none) =
        slot.number? := by
    match slot with
    | .fixed c => rfl
    | .variable name => exact if_neg (tag_resolve_ne l name a (.inr rfl))
  rw [ClauseCode.numberCells, cells]
  exact filter_mapIdx slot

theorem numberCells_layoutOf (t : Symbols) (es : Sentence) :
    (layoutOf t es).code.numberCells = es.numbers.map Cell.number := by
  have word (w : Word) : (Slot.of t w).number? = w.number?.map Cell.number := by
    cases w <;> simp [Slot.of, Slot.number?, Word.number?]
  have content (e : Element) :
      (contentOf e).filterMap Word.number? = e.filterMap Word.number? := by
    rcases e with _ | ⟨_ | _ | _ | _ | _, words⟩ <;> rfl
  have block (e : Element) :
      (blockOf t e).filterMap Slot.number? = (e.filterMap Word.number?).map Cell.number := by
    have header : (Slot.fixed (.header (contentOf e).length)).number? = none := by
      simp [Slot.number?]
    rw [blockOf, List.filterMap_cons_none header, List.filterMap_map, ← content, List.map_filterMap]
    exact List.filterMap_congr fun w _ => word w
  rw [numberCells_code]
  change (es.flatMap (blockOf t)).filterMap Slot.number? = _
  induction es with
  | nil => rfl
  | cons e es ih =>
    rw [List.flatMap_cons, List.filterMap_append, block, ih, Sentence.numbers_cons,
      List.map_append]

end Layout

/-! ### Other numbers -/

/-- The word with its number changed. -/
def Word.renumber (f : Int → Int) : Word → Word
  | .number n => .number (f n)
  | w => w

theorem Word.eq_of_renumber {f : Int → Int} {w w' : Word} (same : w.renumber f = w')
    (other : w'.number? = none) : w = w' := by
  cases w with
  | number n =>
    subst same
    cases other
  | _ => exact same

theorem Marker.number?_word (marker : Marker) (name : String) :
    (marker.word name).number? = none := by
  cases marker <;> rfl

namespace Sentence

variable {s es : Sentence} {f : Int → Int} {err : LoadError}

/-- The sentence with other numbers. -/
def renumber (f : Int → Int) (s : Sentence) : Sentence := s.map (List.map (Word.renumber f))

theorem listChain_renumber (f : Int → Int) (name : String) (i : Nat) (items : List Word) :
    renumber f (listChain name i items) = listChain name i (items.map (Word.renumber f)) := by
  induction items generalizing i with
  | nil => rfl
  | cons item items ih =>
    cases items with
    | nil => rfl
    | cons next items => exact congrArg (_ :: ·) (ih (i + 1))

theorem flatMap_expansion_renumber (f : Int → Int) (s : Sentence) :
    (renumber f s).flatMap expansion = renumber f (s.flatMap expansion) := by
  have element (e : Element) :
      expansion (e.map (Word.renumber f)) = renumber f (expansion e) := by
    rcases e with _ | ⟨_ | _ | _ | _ | name, words⟩
    case cons.lists => exact (listChain_renumber f name 0 words).symm
    all_goals rfl
  induction s with
  | nil => rfl
  | cons e s ih =>
    rw [renumber, List.map_cons, List.flatMap_cons, element, ← renumber, ih, renumber, renumber,
      renumber, List.flatMap_cons, List.map_append]

theorem cellCount_renumber (f : Int → Int) (s : Sentence) :
    (renumber f s).cellCount = s.cellCount := by
  have element (e : Element) : cellsOf (e.map (Word.renumber f)) = cellsOf e := by
    rcases e with _ | ⟨_ | _ | _ | _ | _, words⟩ <;>
      simp [cellsOf, blockSize, contentOf, Word.renumber]
  rw [cellCount, renumber, List.map_map, cellCount]
  exact congrArg List.sum (List.map_congr_left fun e _ => element e)

theorem Misuse.of_renumber (misuse : (renumber f es).Misuse err) : es.Misuse err := by
  cases misuse with
  | @equationHead name words same =>
    rw [renumber, List.head?_map, Option.map_eq_some_iff] at same
    obtain ⟨e, first, same⟩ := same
    obtain ⟨w, ws, rfl, holds, -⟩ := List.map_eq_cons_iff.mp same
    rw [Word.eq_of_renumber holds rfl] at first
    exact .equationHead first
  | innerMarker member inside =>
    obtain ⟨e, there, rfl⟩ := List.mem_map.mp member
    rw [← List.map_tail] at inside
    obtain ⟨w, inside, same⟩ := List.mem_map.mp inside
    rw [Word.eq_of_renumber same (Marker.number?_word _ _)] at inside
    exact .innerMarker there inside
  | ambiguous twice =>
    have held : Word.held? ∘ Word.renumber f = Word.held? := by
      funext w
      cases w <;> rfl
    rw [heldNames, renumber, ← List.map_flatten, List.filterMap_map, held] at twice
    exact .ambiguous twice

theorem Defect.of_renumber (defect : (renumber f s).Defect err) : s.Defect err := by
  cases defect with
  | noElement none => exact .noElement (List.map_eq_nil_iff.mp none)
  | emptyList there =>
    obtain ⟨e, there, same⟩ := List.mem_map.mp there
    obtain ⟨w, rfl, lists⟩ := List.map_eq_singleton_iff.mp same
    rw [Word.eq_of_renumber lists rfl] at there
    exact .emptyList there
  | misuse expanded misuse =>
    obtain ⟨items, rfl⟩ := expandLists_eq_ok.mp expanded
    rw [flatMap_expansion_renumber] at misuse
    refine .misuse (expandLists_eq_ok.mpr ⟨fun name there => items name ?_, rfl⟩)
      misuse.of_renumber
    exact List.mem_map.mpr ⟨_, there, rfl⟩

end Sentence

/-- Every number of a sentence that links is in a cell, in order, and is kept modulo `2^61`;
no number is refused, as the sentence links with any others as well. A number is kept as it
is exactly from `-2^60` to `2^60 - 1`, and two of them have one cell or unify exactly if they
differ by a multiple of `2^61`. -/
theorem Sentence.numberCells_eq {s : Sentence} {symbols : Symbols} {code : ClauseCode}
    (linked : (ClauseCode.ofSentence s symbols).1 = .ok code) :
    code.numberCells = s.numbers.map Cell.number ∧
    (s.cellCount < 2 ^ 60 →
      ∀ f, ∃ code', (ClauseCode.ofSentence (s.renumber f) symbols).1 = .ok code') ∧
    (∀ n : Int, (Cell.number n).tag = .number ∧ (Cell.number n).payload = n.bmod (2 ^ 61) ∧
      ((Cell.number n).payload = n ↔ -2 ^ 60 ≤ n ∧ n < 2 ^ 60)) ∧
    ∀ n m : Int, (Cell.number n = .number m ↔ (2 ^ 61 : Int) ∣ n - m) ∧
      ∀ (st : Store) (fuel boundary : Nat),
        st.unify (fuel + 1) boundary (.number n) (.number m) =
          .ok (decide ((2 ^ 61 : Int) ∣ n - m), st) := by
  refine ⟨?_, fun fits f => ?_, fun n => ?_, fun n m => ⟨Cell.number_eq_number, ?_⟩⟩
  · obtain ⟨es, expanded, -, links⟩ := Linking.link_links (Prod.ext linked rfl)
    obtain ⟨-, rfl⟩ := Sentence.expandLists_eq_ok.mp expanded
    rw [(links _ (.refl _)).code, Layout.numberCells_layoutOf, Sentence.numbers_expanded]
  · cases result : (ClauseCode.ofSentence (s.renumber f) symbols).1 with
    | ok code' => exact ⟨code', rfl⟩
    | error e =>
      have defect := defect_of_error (by rwa [cellCount_renumber]) result
      exact absurd defect.of_renumber (not_defect_of_ok linked e)
  · exact ⟨Cell.tag_number n, Cell.payload_make_bmod .number n, Cell.payload_number_eq_self⟩
  · intro st fuel boundary
    rw [Store.unify_numbers, decide_eq_decide.mpr Cell.number_eq_number]

/-- The code of `p X` with the list of `-2^60` and `7` for `X`. -/
def edgesCode : ClauseCode where
  cells := #[.header 2, .constant 0, .structRef 3,
    .header 3, .constant 1, .number (-2 ^ 60), .structRef 7,
    .header 3, .constant 1, .number 7, .constant 2]
  goals := [.structRef 0]
  neck := 11

theorem Sentence.numberCells_eq_edges :
    (ClauseCode.ofSentence
      [[.const "p", .var "X"], [.lists "X", .number (-2 ^ 60), .number 7]] ⟨#[]⟩).1 =
        .ok edgesCode ∧
    edgesCode.numberCells = [.number (-2 ^ 60), .number 7] := by
  have linked : (ClauseCode.ofSentence
      [[.const "p", .var "X"], [.lists "X", .number (-2 ^ 60), .number 7]] ⟨#[]⟩).1 =
        .ok edgesCode := by decide +kernel
  exact ⟨linked, (Sentence.numberCells_eq linked).1⟩

/-- The code of `p` and the least number that fits. -/
def leastCode : ClauseCode where
  cells := #[.header 2, .constant 0, .number (-2 ^ 60)]
  goals := [.structRef 0]
  neck := 3

/-- The first number that does not fit links, to the cell of the least one that does. -/
theorem ClauseCode.number_changed :
    (ClauseCode.ofSentence [[.const "p", .number (2 ^ 60)]] ⟨#[]⟩).1 = .ok leastCode ∧
    (ClauseCode.ofSentence [[.const "p", .number (-2 ^ 60)]] ⟨#[]⟩).1 = .ok leastCode ∧
    leastCode.numberCells.map Cell.payload = [-2 ^ 60] := by
  decide +kernel

end HornMachine
