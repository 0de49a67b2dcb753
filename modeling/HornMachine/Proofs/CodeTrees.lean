import HornMachine.Proofs.Derivations
import HornMachine.Proofs.Linkage
import HornMachine.Proofs.Valuations

/-!
# Copied code as a ground instance

A consistent valuation of a copy reads the sentence with trees for its names and
solves its equations. Conversely trees for the names that solve the equations
extend a valuation from the heap below to the copy. So the consistent valuations
of a copy are the ground instances of its clause.
-/
namespace HornMachine

variable {t : Symbols} {es : List Element} {code : ClauseCode} {h k : Heap} {lo base n : Nat}
  {v : Nat → Term} {σ : String → Term} {o i : Nat} {e : Element} {w : Word}

/-- The cells of a copy at `base` stand for the words of the elements. -/
def Reads (es : List Element) (base : Nat) (v : Nat → Term) (σ : String → Term) : Prop :=
  ∀ (o : Nat) (e : Element) (i : Nat) (w : Word), BlockAt es o e → (contentOf e)[i]? = some w →
    v (base + (o + 1 + i)) = w.tree σ

theorem Reads.block (reads : Reads es base v σ) (block : BlockAt es o e) :
    Term.array ((List.range (contentOf e).length).map fun i => v (base + o + 1 + i)) =
      Element.tree σ (contentOf e) := by
  refine congrArg Term.array (List.ext_getElem? fun i => ?_)
  rw [List.getElem?_map, List.getElem?_map]
  by_cases inside : i < (contentOf e).length
  · have found : (contentOf e)[i]? = some (contentOf e)[i] := List.getElem?_eq_getElem inside
    rw [List.getElem?_range inside, found, Option.map_some, Option.map_some,
      ← reads o e i _ block found]
    congr 2
    omega
  · rw [List.getElem?_eq_none (by simpa using inside), List.getElem?_eq_none (by omega)]
    rfl

namespace Renders

theorem size_eq (renders : Renders t es code) : code.size = (layoutOf t es).slots.size := by
  rw [renders.code, Layout.size_code]

theorem hasBlock (renders : Renders t es code) (block : BlockAt es o e) :
    code.HasBlock o (contentOf e).length := by
  rw [renders.code]
  exact Layout.hasBlock block renders.plain

theorem cell (renders : Renders t es code) (block : BlockAt es o e)
    (found : (contentOf e)[i]? = some w) :
    code.cells[o + 1 + i]? = some ((layoutOf t es).slotCell (o + 1 + i) (Slot.of t w)) := by
  rw [renders.code]
  exact Layout.word_cell block t found

theorem word_lt (renders : Renders t es code) (block : BlockAt es o e)
    (found : (contentOf e)[i]? = some w) : o + 1 + i < code.size :=
  ClauseCode.lt_size_of_getElem? (renders.cell block found)

theorem anchor_unique (renders : Renders t es code) {name : String} {f : Nat} {ws ws' : List Word}
    (block : BlockAt es o (.holds name :: ws)) (block' : BlockAt es f (.holds name :: ws')) :
    o = f :=
  Layout.anchor_unique renders.unambiguous block block'

theorem word_plain (renders : Renders t es code) (block : BlockAt es o e)
    (found : (contentOf e)[i]? = some w) : w.Plain t :=
  renders.plain w (block.word_mem found)

/-- A word that is no variable stands for itself, wherever it is copied to. -/
theorem fixed_tree (renders : Renders t es code) (sound : t.Sound)
    (block : BlockAt es o e) (found : (contentOf e)[i]? = some w)
    (fixed : ∀ name, w ≠ .var name) (a base : Nat) :
    k.treeOf t v (((layoutOf t es).slotCell a (Slot.of t w)).relocate base) = w.tree σ := by
  have plain := renders.word_plain block found
  cases w with
  | const name =>
    obtain ⟨id, known⟩ := plain
    rw [Slot.of, known, Option.getD_some, Layout.slotCell,
      Cell.relocate_of_tag (.inl (Cell.tag_constant id)),
      Heap.treeOf_symbol (sound.lookup_eq_some.mp known)]
    rfl
  | number m =>
    obtain ⟨lower, upper⟩ := renders.number m (block.word_mem found)
    have payload : (Cell.number m).payload = m := Cell.payload_make (by omega) upper
    rw [Slot.of, Layout.slotCell, Cell.relocate_of_tag (.inr (.inl (Cell.tag_number m))),
      Heap.treeOf_number (Cell.tag_number m), payload]
    rfl
  | var name => exact absurd rfl (fixed name)
  | holds name => exact plain.elim
  | lists name => exact plain.elim

end Renders

theorem ClauseCode.Copied.small (copied : code.Copied n h k) {a : Nat} {c : Cell}
    (found : code.cells[a]? = some c) (inside : a < n) : a + h.top < 2 ^ 60 := by
  have := Heap.lt_top_of_get? (copied.get? found inside)
  have := k.top_lt
  omega

/-- The copy of a variable refers to the equation of its name, or to its first
mention. -/
theorem Renders.var_cases (renders : Renders t es code) (copied : code.Copied n h k)
    (cut : code.Cut n) (small : code.size < 2 ^ 60) {name : String} (block : BlockAt es o e)
    (found : (contentOf e)[i]? = some (.var name)) (inside : o + 1 + i < n) {c : Cell}
    (here : c = ((layoutOf t es).slotCell (o + 1 + i) (Slot.of t (.var name))).relocate h.top) :
    (∃ f ws, (layoutOf t es).anchorOf? name = some f ∧ BlockAt es f (.holds name :: ws) ∧
      c = .structRef (h.top + f) ∧ (Cell.structRef (h.top + f)).addr = h.top + f ∧
      k.HasBlock (h.top + f) ws.length) ∨
    ∃ f o' e' i', (layoutOf t es).anchorOf? name = none ∧
      (layoutOf t es).firstOf? name = some f ∧ c.isVar = true ∧ c.addr = h.top + f ∧
      BlockAt es o' e' ∧ (contentOf e')[i']? = some (.var name) ∧ f = o' + 1 + i' := by
  have cell := renders.cell block found
  rw [Slot.of, Layout.slotCell] at here cell
  rcases Layout.resolve_cases (t := t) block found with
    ⟨f, ws, anchored, equation, e⟩ | ⟨f, free, first, below, root, e⟩
  · rw [e] at here cell
    have target := renders.hasBlock equation
    have bound := target.lt_size
    have ref := Cell.isInternalRef_iff.mpr (.inr (Cell.tag_structRef f))
    have within := (cut _ _ inside cell).1 ref
    rw [Cell.addr_structRef (by omega)] at within
    have limit := copied.small target.1 within
    refine .inl ⟨f, ws, anchored, equation, ?_, Cell.addr_structRef (by omega), ?_⟩
    · rw [here, Cell.relocate_structRef limit, Nat.add_comm]
    · exact copied.hasBlock target ((cut _ _ within target.1).2 _ target)
  · obtain ⟨f', first', -, o', e', i', block', found', same⟩ :=
      Layout.exists_firstOf? (t := t) block found free
    obtain rfl : f = f' := Option.some.inj (first.symm.trans first')
    have isVar : ((layoutOf t es).resolve name (o + 1 + i)).isVar = true := by
      rw [e]
      exact Layout.isVar_mention f _
    have bound : f < code.size := by
      rw [same]
      exact renders.word_lt block' found'
    have addr : ((layoutOf t es).resolve name (o + 1 + i)).addr = f := by
      rw [e]
      exact Layout.addr_mention (by omega) _
    have ref := Cell.isInternalRef_iff.mpr (.inl isVar)
    have within := (cut _ _ inside cell).1 ref
    have target : code.cells[f]? = some (.var f) := by
      rw [renders.code]
      exact root
    refine .inr ⟨f, o', e', i', free, first, ?_, ?_, block', found', same⟩
    · rw [here, Cell.isVar_relocate]
      exact isVar
    · rw [here, Cell.addr_relocate ref (by rw [addr]; exact copied.small target (addr ▸ within)),
        addr, Nat.add_comm]

/-! ### From valuations to instances -/

/-- The tree that a valuation of a copy at `base` gives to a name. -/
def assignment (t : Symbols) (es : List Element) (k : Heap) (base : Nat) (v : Nat → Term)
    (name : String) : Term :=
  match (layoutOf t es).anchorOf? name with
  | some f => k.treeOf t v (.structRef (base + f))
  | none =>
    match (layoutOf t es).firstOf? name with
    | some f => v (base + f)
    | none => .array []

namespace Renders

/-- A consistent valuation of a copy reads the sentence. -/
theorem reads (renders : Renders t es code) (sound : t.Sound)
    (copied : code.Copied code.size h k) (cut : code.Cut code.size) (low : lo ≤ h.top)
    (consistent : k.Consistent t lo v) :
    Reads es h.top v (assignment t es k h.top v) := by
  intro o e i w block found
  have small := copied.size_lt
  have cell := renders.cell block found
  have here := copied.get? cell (renders.word_lt block found)
  have element := Layout.isElement_slotCell block found (renders.word_plain block found)
  rw [consistent _ _ (by omega) here (by rw [Cell.IsElement, Cell.tag_relocate]; exact element)]
  cases w with
  | var name =>
    rw [Word.tree, assignment]
    rcases renders.var_cases copied cut small block found (renders.word_lt block found) rfl with
      ⟨f, ws, anchored, equation, e, -, -⟩ | ⟨f, o', e', i', free, first, isVar, addr, -⟩
    · rw [e, anchored]
    · rw [Heap.treeOf_var isVar, addr, free, first]
  | _ => exact renders.fixed_tree sound block found (by simp) _ _

/-- A consistent valuation of a copy solves the equations of the sentence. -/
theorem solves (renders : Renders t es code) (sound : t.Sound)
    (copied : code.Copied code.size h k) (cut : code.Cut code.size) (low : lo ≤ h.top)
    (consistent : k.Consistent t lo v) (member : e ∈ es) :
    Element.Solves (assignment t es k h.top v) e := by
  obtain ⟨o, block⟩ := exists_blockAt member
  cases equation : isEquation e with
  | false => exact Element.solves_of_not_equation _ equation
  | true =>
    cases e with
    | nil => cases equation
    | cons w ws =>
      cases w with
      | holds name =>
        obtain ⟨f, anchored⟩ := Layout.exists_anchorOf? (t := t) block
        obtain ⟨ws', block'⟩ := Layout.anchorOf?_eq_some anchored
        obtain rfl := renders.anchor_unique block block'
        have target := renders.hasBlock block
        have small := copied.small target.1 (ClauseCode.lt_size_of_getElem? target.1)
        have whole := copied.hasBlock target target.lt_size
        have reads := renders.reads sound copied cut low consistent
        rw [Element.Solves, assignment, anchored]
        dsimp only
        have addr : (Cell.structRef (h.top + o)).addr = h.top + o :=
          Cell.addr_structRef (by omega)
        rw [Heap.treeOf_block (Cell.tag_structRef _) (by rw [addr]; exact whole), addr]
        exact reads.block block
      | _ => cases equation

end Renders

/-! ### From instances to valuations -/

/-- The words of the elements, with a gap for every header. -/
def wordsOf (es : List Element) : List (Option Word) :=
  es.flatMap fun e => none :: (contentOf e).map some

theorem BlockAt.word (block : BlockAt es o e) (found : (contentOf e)[i]? = some w) :
    (wordsOf es)[o + 1 + i]? = some (some w) := by
  obtain ⟨before, after, rfl, rfl⟩ := block
  have size : (wordsOf before).length = (before.map blockSize).sum := by
    simp only [wordsOf, List.length_flatMap, List.length_cons, List.length_map]
    rfl
  have inside := (List.getElem?_eq_some_iff.mp found).choose
  have split : wordsOf (before ++ e :: after) =
      wordsOf before ++ ((none :: (contentOf e).map some) ++ wordsOf after) := by
    simp [wordsOf]
  rw [split, List.getElem?_append_right (by omega), size,
    show (before.map blockSize).sum + 1 + i - (before.map blockSize).sum = i + 1 by omega,
    List.getElem?_append_left (by simpa using inside), List.getElem?_cons_succ, List.getElem?_map,
    found]
  rfl

/-- Above `top` the trees of the words, below it those of `v`. -/
def extension (es : List Element) (σ : String → Term) (top : Nat) (v : Nat → Term) (a : Nat) :
    Term :=
  if a < top then v a
  else
    match (wordsOf es)[a - top]? with
    | some (some w) => w.tree σ
    | _ => .array []

theorem extension_below {top a : Nat} (below : a < top) : extension es σ top v a = v a :=
  if_pos below

theorem reads_extension (es : List Element) (σ : String → Term) (top : Nat) (v : Nat → Term) :
    Reads es top (extension es σ top v) σ := by
  intro o e i w block found
  rw [extension, if_neg (by omega), Nat.add_sub_cancel_left, block.word found]

/-- What stands below a copy stands for what it did. -/
theorem treeOf_extension {c : Cell} {count : Nat} (term : h.IsTerm lo count c)
    (keeps : Heap.Keeps lo h k) :
    k.treeOf t (extension es σ h.top v) c = h.treeOf t v c :=
  term.treeOf_congr (fun _ _ block => keeps.block block) fun _ _ below => extension_below below

/-- Trees that solve the equations extend a valuation to a copy. -/
theorem Renders.consistent_extension (renders : Renders t es code) (sound : t.Sound)
    (copied : code.Copied n h k) (cut : code.Cut n)
    (small : code.size < 2 ^ 60) (closed : h.Closed lo t.count) (solved : ∀ e ∈ es, Element.Solves σ e)
    (consistent : h.Consistent t lo v) :
    k.Consistent t lo (extension es σ h.top v) := by
  have keeps : Heap.Keeps lo h k := .append copied
  have reads := reads_extension es σ h.top v
  intro a c low found element
  by_cases below : a < h.top
  · rw [Heap.get?_append copied, if_pos below] at found
    have term := (closed a c low found element).1
    rw [extension_below below, treeOf_extension term keeps, consistent a c low found element]
  · obtain ⟨d, inside, source, rfl⟩ := copied.of_get? (by omega) found
    have origin := source
    rw [renders.code] at origin
    rcases Layout.cell_cases origin with ⟨e, -, rfl⟩ | ⟨o, e, i, w, block, content, same, rfl⟩
    · rw [Cell.IsElement, Cell.tag_relocate] at element
      exact absurd (Cell.tag_header _) element.1
    · obtain rfl : a = h.top + (o + 1 + i) := by omega
      rw [Nat.add_sub_cancel_left] at inside ⊢
      rw [reads o e i w block content]
      cases w with
      | var name =>
        rcases renders.var_cases copied cut small block content inside rfl with
          ⟨f, ws, -, equation, c, addr, target⟩ | ⟨f, o', e', i', -, -, isVar, addr, block', found', rfl⟩
        · rw [c, Heap.treeOf_block (Cell.tag_structRef _) (by rw [addr]; exact target), addr]
          exact (solved _ equation.mem).trans (reads.block equation).symm
        · rw [Heap.treeOf_var isVar, addr, reads o' e' i' _ block' found']
      | _ => exact (renders.fixed_tree sound block content (by simp) _ _).symm

end HornMachine
