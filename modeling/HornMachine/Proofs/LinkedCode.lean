import HornMachine.Clause
import HornMachine.Proofs.ClosedUnification

/-!
# Copies of linked code

Linked code is closed in itself: variables point down at a first occurrence,
references at complete blocks, constants at symbols. Nothing before the end of
the head copy refers behind it. A relocated copy on top of a closed region
therefore extends the region, with the copied head and goals as terms of it, be
it a copy of the whole code or of the head alone.
-/
namespace HornMachine

namespace ClauseCode

/-- A structure of `n` elements lies at offset `a`. -/
def HasBlock (code : ClauseCode) (a n : Nat) : Prop :=
  code.cells[a]? = some (.header n) ∧
    ∀ i, i < n → ∃ c, code.cells[a + 1 + i]? = some c ∧ c.IsElement

/-- Code that is closed in itself, over `count` symbols. -/
structure Linked (code : ClauseCode) (count : Nat) : Prop where
  var : ∀ (a : Nat) (c : Cell), code.cells[a]? = some c → c.isVar = true →
    c.addr ≤ a ∧ code.cells[c.addr]? = some (.var c.addr)
  ref : ∀ (a : Nat) (c : Cell), code.cells[a]? = some c → c.tag = .structRef →
    ∃ n, code.HasBlock c.addr n
  const : ∀ (a : Nat) (c : Cell), code.cells[a]? = some c → c.tag = .constant →
    ∃ s, s < count ∧ c = .constant s
  /-- A goal has at least one element. -/
  goal : ∀ g ∈ code.goals, g.tag = .structRef ∧ ∃ n, code.HasBlock g.addr (n + 1)

/-- The cells of the code, as if it had no goals. -/
def bare (code : ClauseCode) : ClauseCode := { code with goals := [] }

/-- Nothing before offset `n` refers to it or behind it. -/
def Cut (code : ClauseCode) (n : Nat) : Prop :=
  ∀ (a : Nat) (c : Cell), a < n → code.cells[a]? = some c →
    (c.isInternalRef = true → c.addr < n) ∧ ∀ m, code.HasBlock a m → a + m < n

variable {code : ClauseCode} {count lo n : Nat} {h k : Heap}

theorem lt_size_of_getElem? {a : Nat} {c : Cell} (e : code.cells[a]? = some c) :
    a < code.size := (Array.getElem?_eq_some_iff.mp e).choose

theorem HasBlock.lt_size {a m : Nat} (block : code.HasBlock a m) : a + m < code.size := by
  cases m with
  | zero => exact lt_size_of_getElem? block.1
  | succ m =>
    obtain ⟨c, found, -⟩ := block.2 m (Nat.lt_succ_self m)
    have := lt_size_of_getElem? found
    omega

theorem Linked.ref_lt (linked : code.Linked count) {a : Nat} {c : Cell}
    (found : code.cells[a]? = some c) (ref : c.isInternalRef = true) : c.addr < code.size := by
  rcases Cell.isInternalRef_iff.mp ref with isVar | tag
  · exact lt_size_of_getElem? (linked.var a c found isVar).2
  · obtain ⟨n, block⟩ := linked.ref a c found tag
    exact lt_size_of_getElem? block.1

theorem Linked.cut_size (linked : code.Linked count) : code.Cut code.size :=
  fun _ _ _ found => ⟨linked.ref_lt found, fun _ block => block.lt_size⟩

/-! ### Relocated copies -/

/-- The first `n` cells of the code, copied on top of `h`. -/
def Copied (code : ClauseCode) (n : Nat) (h k : Heap) : Prop :=
  k.toList = h.toList ++ (code.cells.toList.take n).map (·.relocate h.top)

theorem copied_size : code.Copied code.size h k ↔
    k.toList = h.toList ++ code.cells.toList.map (·.relocate h.top) := by
  rw [Copied, List.take_of_length_le (by simp [ClauseCode.size])]

theorem Copied.top_of_le (copied : code.Copied n h k) (le : n ≤ code.size) :
    k.top = h.top + n := by
  rw [Heap.top_append copied, List.length_map, List.length_take, Array.length_toList, ← size,
    Nat.min_eq_left le]

theorem Copied.top (copied : code.Copied code.size h k) : k.top = h.top + code.size :=
  copied.top_of_le (Nat.le_refl _)

theorem Copied.size_lt (copied : code.Copied code.size h k) : code.size < 2 ^ 60 := by
  have limit := k.top_lt
  have top := copied.top
  omega

theorem Copied.get? (copied : code.Copied n h k) {a : Nat} {c : Cell}
    (found : code.cells[a]? = some c) (inside : a < n) :
    k.get? (h.top + a) = some (c.relocate h.top) := by
  rw [Heap.get?_append copied, if_neg (by omega), Nat.add_sub_cancel_left, List.getElem?_map,
    List.getElem?_take, if_pos inside, Array.getElem?_toList, found]
  rfl

theorem Copied.span {load : Heap} {start len : Nat} (stored : code.Copied code.size h load)
    (intact : ∀ i, start ≤ i → i < start + len → k.get? (h.top + i) = load.get? (h.top + i))
    (le : start + len ≤ code.size) (inside : h.top + start + len ≤ k.top) :
    k.span (h.top + start) len =
      ((code.cells.toList.drop start).take len).map (·.relocate h.top) := by
  apply List.ext_getElem?
  intro i
  by_cases short : i < len
  · obtain ⟨c, found⟩ : ∃ c, code.cells[start + i]? = some c :=
      ⟨_, Array.getElem?_eq_getElem (show start + i < code.size by omega)⟩
    have cell := stored.get? found (lt_size_of_getElem? found)
    rw [← intact _ (Nat.le_add_right _ _) (by omega), ← Nat.add_assoc] at cell
    rw [Heap.getElem?_span short, cell, List.getElem?_map, List.getElem?_take, if_pos short,
      List.getElem?_drop, Array.getElem?_toList, found, Option.map_some]
  · rw [List.getElem?_eq_none, List.getElem?_eq_none]
    · simp only [List.length_map, List.length_take]
      omega
    · rw [Heap.length_span inside]
      omega

theorem Copied.map_span {load : Heap} {start len : Nat} (stored : code.Copied code.size h load)
    (intact : ∀ i, start ≤ i → i < start + len → k.get? (h.top + i) = load.get? (h.top + i))
    (le : start + len ≤ code.size) (inside : h.top + start + len ≤ k.top) (shift : Nat) :
    (k.span (h.top + start) len).map (·.relocate shift) =
      ((code.cells.toList.drop start).take len).map (·.relocate (h.top + shift)) := by
  rw [stored.span intact le inside, Cell.map_relocate_relocate]

theorem Copied.of_get? (copied : code.Copied n h k) {a : Nat} {c : Cell} (above : h.top ≤ a)
    (found : k.get? a = some c) :
    ∃ d, a - h.top < n ∧ code.cells[a - h.top]? = some d ∧ c = d.relocate h.top := by
  rw [Heap.get?_append copied, if_neg (by omega), List.getElem?_map, List.getElem?_take] at found
  split at found
  · next inside =>
    rw [Array.getElem?_toList] at found
    obtain ⟨d, source, same⟩ := Option.map_eq_some_iff.mp found
    exact ⟨d, inside, source, same.symm⟩
  · cases found

theorem Copied.addr (copied : code.Copied n h k) {c d : Cell} (ref : c.isInternalRef = true)
    (target : code.cells[c.addr]? = some d) (inside : c.addr < n) :
    (c.relocate h.top).addr = h.top + c.addr := by
  have := Heap.lt_top_of_get? (copied.get? target inside)
  have := k.top_lt
  rw [Cell.addr_relocate ref (by omega), Nat.add_comm]

theorem Copied.hasElement (copied : code.Copied n h k) {a : Nat} {c : Cell}
    (found : code.cells[a]? = some c) (inside : a < n) (element : c.IsElement) :
    k.HasElement (h.top + a) :=
  ⟨_, copied.get? found inside, by rw [Cell.IsElement, Cell.tag_relocate]; exact element⟩

theorem Copied.hasBlock (copied : code.Copied n h k) {a m : Nat} (block : code.HasBlock a m)
    (inside : a + m < n) : k.HasBlock (h.top + a) m := by
  constructor
  · have header := copied.get? block.1 (by omega)
    rwa [Cell.relocate_of_tag (.inr (.inr (Cell.tag_header m)))] at header
  · intro i short
    obtain ⟨c, found, element⟩ := block.2 i short
    have := copied.hasElement found (by omega) element
    rwa [show h.top + (a + 1 + i) = h.top + a + 1 + i by omega] at this

theorem Copied.term (copied : code.Copied n h k) (linked : code.Linked count)
    (cut : code.Cut n) (low : lo ≤ h.top) {a : Nat} {c : Cell}
    (found : code.cells[a]? = some c) (inside : a < n) (element : c.IsElement) :
    k.IsTerm lo count (c.relocate h.top) where
  element := by rw [Cell.IsElement, Cell.tag_relocate]; exact element
  var isVar := by
    rw [Cell.isVar_relocate] at isVar
    have ref := Cell.isInternalRef_iff.mpr (.inl isVar)
    have target := (linked.var a c found isVar).2
    have within := (cut a c inside found).1 ref
    rw [copied.addr ref target within]
    exact ⟨by omega, copied.hasElement target within
      (Cell.isElement_of_isVar (Cell.var_isVar c.addr))⟩
  ref tag := by
    rw [Cell.tag_relocate] at tag
    have ref := Cell.isInternalRef_iff.mpr (.inr tag)
    obtain ⟨m, block⟩ := linked.ref a c found tag
    have within := (cut a c inside found).1 ref
    rw [copied.addr ref block.1 within]
    exact ⟨by omega, m, copied.hasBlock block ((cut _ _ within block.1).2 m block)⟩
  const tag := by
    rw [Cell.tag_relocate] at tag
    obtain ⟨s, bound, same⟩ := linked.const a c found tag
    exact ⟨s, bound, (Cell.relocate_of_tag (.inl tag) h.top).trans same⟩

/-- The copy of a reference to a block is a term, and the block is there. -/
theorem Copied.refTerm (copied : code.Copied n h k) (cut : code.Cut n) (low : lo ≤ h.top)
    {ref : Cell} {m : Nat} (tag : ref.tag = .structRef) (block : code.HasBlock ref.addr m)
    (inside : ref.addr < n) :
    k.IsTerm lo count (ref.relocate h.top) ∧ k.HasBlock (ref.relocate h.top).addr m := by
  have moved := copied.addr (Cell.isInternalRef_iff.mpr (.inr tag)) block.1 inside
  have block' := copied.hasBlock block ((cut _ _ inside block.1).2 m block)
  have tag' := (Cell.tag_relocate ref h.top).trans tag
  have value := Cell.not_isVar_of_tag tag' (by decide) (by decide)
  rw [← moved] at block'
  refine ⟨⟨Cell.isElement_of_tag tag' (by decide) (by decide), ?_, ?_, ?_⟩, block'⟩
  · intro isVar
    simp [value] at isVar
  · intro _
    exact ⟨by omega, m, block'⟩
  · intro constant
    rw [tag'] at constant
    cases constant

theorem Copied.closed (copied : code.Copied n h k) (linked : code.Linked count)
    (cut : code.Cut n) (low : lo ≤ h.top) (closed : h.Closed lo count) : k.Closed lo count := by
  intro a c above found element
  by_cases old : a < h.top
  · rw [Heap.get?_append copied, if_pos old] at found
    obtain ⟨term, down⟩ := closed a c above found element
    exact ⟨term.mono (.append copied), down⟩
  · obtain ⟨d, inside, source, rfl⟩ := copied.of_get? (by omega) found
    rw [Cell.IsElement, Cell.tag_relocate] at element
    refine ⟨copied.term linked cut low source inside element, fun isVar => ?_⟩
    rw [Cell.isVar_relocate] at isVar
    have ref := Cell.isInternalRef_iff.mpr (.inl isVar)
    obtain ⟨down, target⟩ := linked.var _ d source isVar
    rw [copied.addr ref target ((cut _ d inside source).1 ref)]
    omega

theorem Copied.rooted (copied : code.Copied n h k) (linked : code.Linked count)
    (cut : code.Cut n) (rooted : h.Rooted) : k.Rooted := by
  intro a c found isVar self
  by_cases old : a < h.top
  · rw [Heap.get?_append copied, if_pos old] at found
    exact rooted a c found isVar self
  · obtain ⟨d, inside, source, rfl⟩ := copied.of_get? (by omega) found
    rw [Cell.isVar_relocate] at isVar
    have ref := Cell.isInternalRef_iff.mpr (.inl isVar)
    obtain ⟨-, target⟩ := linked.var _ d source isVar
    have within := (cut _ d inside source).1 ref
    have moved := copied.addr ref target within
    have small := Heap.lt_top_of_get? (copied.get? target within)
    have bound := k.top_lt
    rw [self] at moved
    have same : d = Cell.var d.addr := by
      rw [show a - h.top = d.addr by omega, target, Option.some.injEq] at source
      exact source.symm
    rw [same, Cell.relocate_var (by omega)]
    congr 1
    omega

end ClauseCode

theorem Clause.store_eq_ok {h k : Heap} {code : ClauseCode} {ref : Cell} {body : List Cell}
    {positions : Nat} {clause : Clause} :
    Clause.store h code ref body positions = .ok (clause, k) ↔
      code.Copied code.size h k ∧ ∃ keys,
        Keys.ofRef k (ref.relocate h.top) positions = .ok keys ∧
        clause = ⟨code.size, h.top, code.neck, code.headLen, ref.relocate h.top,
          body.map (·.relocate h.top), keys⟩ := by
  simp only [Clause.store, Halt.bind_eq_ok, Heap.pushRelocated_eq_ok, ← ClauseCode.copied_size,
    Halt.pure_eq_ok, Prod.mk.injEq]
  constructor
  · rintro ⟨m, pushed, keys, made, rfl, rfl⟩
    exact ⟨pushed, keys, made, rfl⟩
  · rintro ⟨pushed, keys, made, rfl⟩
    exact ⟨k, pushed, keys, made, rfl, rfl⟩

end HornMachine
