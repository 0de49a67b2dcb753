import HornMachine.Proofs.Readouts
import HornMachine.Proofs.SentenceTerms
import HornMachine.Proofs.TermReading

/-!
# Reading a stored clause

A clause that was linked and stored says what its sentence says: a reference to the
block of an element is read out as the array of its words. The structures a reader is
inside are blocks of elements whose arrays are larger than what is still to be read,
so none of them is met again while the equations are acyclic.
-/
namespace HornMachine

namespace Term

/-- An element of an array is smaller than the array. -/
theorem nodes_lt_array {x : Term} {xs : List Term} (member : x ∈ xs) :
    x.nodes < (array xs).nodes := by
  have le : x.nodes ≤ nodesItems xs := by
    induction xs with
    | nil => cases member
    | cons y xs ih =>
      rw [nodesItems]
      rcases List.mem_cons.mp member with rfl | later
      · exact Nat.le_add_right ..
      · exact (ih later).trans (Nat.le_add_left ..)
  rw [nodes]
  omega

end Term

/-- The code of elements lies at `base`, with the names of `t`. -/
structure Heap.Stores (h : Heap) (t : Symbols) (es : List Element) (base : Nat) : Prop where
  cell : ∀ a c, (layoutOf t es).cells[a]? = some c → h.get? (base + a) = some (c.relocate base)
  sound : t.Sound
  plain : ∀ w ∈ es.flatMap contentOf, w.Plain t
  number : ∀ n, Word.number n ∈ es.flatMap contentOf → -2 ^ 60 ≤ n ∧ n < 2 ^ 60
  unambiguous : (layoutOf t es).ambiguous? = none

/-- The structures at `opens` that belong to elements have more nodes than `x`. -/
def Above (es : List Element) (base : Nat) (opens : List Nat) (x : Term) : Prop :=
  ∀ o e, base + o ∈ opens → BlockAt es o e →
    ∀ depth y, arrayWithin es base depth (contentOf e) = some y → x.nodes < y.nodes

theorem Above.nil (es : List Element) (base : Nat) (x : Term) : Above es base [] x :=
  fun _ _ member => nomatch member

section

variable {es : List Element} {base depth o : Nat} {e : Element} {opens : List Nat} {x : Term}
  {xs : List Term}

theorem Above.item (above : Above es base opens (.array xs)) (block : BlockAt es o e)
    (shown : arrayWithin es base depth (contentOf e) = some (.array xs)) (member : x ∈ xs) :
    Above es base ((base + o) :: opens) x := by
  intro o' e' opened block' depth' y shown'
  have less := Term.nodes_lt_array member
  rcases List.mem_cons.mp opened with same | outer
  · obtain rfl : o' = o := Nat.add_left_cancel same
    obtain rfl := block'.unique block
    obtain rfl := arrayWithin_unique shown shown'
    exact less
  · exact less.trans (above o' e' outer block' depth' y shown')

theorem Above.new (above : Above es base opens x) (block : BlockAt es o e)
    (shown : arrayWithin es base depth (contentOf e) = some x) : base + o ∉ opens :=
  fun opened => absurd (above o e opened block depth x shown) (Nat.lt_irrefl _)

end

namespace Heap

theorem termAt_constant {h : Heap} {t : Symbols} {depth id : Nat} {opens : List Nat}
    {name : String} (known : t.resolve id = some name) :
    h.termAt t depth opens (.constant id) = .ok (.label name) := by
  apply termAt_leaf
  have value : (Cell.constant id).isVar = false :=
    Cell.not_isVar_of_tag (Cell.tag_constant id) (by decide) (by decide)
  rw [openCell, deref_of_value value, Halt.ok_bind, Cell.tag_constant]
  dsimp only
  rw [Symbols.nameOf_constant known]

theorem termAt_number {h : Heap} {t : Symbols} {depth : Nat} {opens : List Nat} {n : Int}
    (lower : -2 ^ 60 ≤ n) (upper : n < 2 ^ 60) :
    h.termAt t depth opens (.number n) = .ok (.int n) := by
  apply termAt_leaf
  have value : (Cell.number n).isVar = false :=
    Cell.not_isVar_of_tag (Cell.tag_number n) (by decide) (by decide)
  rw [openCell, deref_of_value value, Halt.ok_bind, Cell.tag_number]
  dsimp only
  rw [Cell.number, Cell.payload_make lower upper]

end Heap

namespace Heap.Stores

variable {h : Heap} {t : Symbols} {es : List Element} {base depth o i : Nat} {e : Element}
  {w : Word} {opens : List Nat} {x : Term} {inner : List Word → Option Term}

theorem header (stores : h.Stores t es base) (block : BlockAt es o e) :
    h.get? (base + o) = some (.header (contentOf e).length) := by
  rw [stores.cell _ _ (Layout.header_cell block t),
    Cell.relocate_of_tag (.inr (.inr (Cell.tag_header _)))]

theorem word (stores : h.Stores t es base) (block : BlockAt es o e)
    (found : (contentOf e)[i]? = some w) :
    h.get? (base + o + 1 + i) =
      some (((layoutOf t es).slotCell (o + 1 + i) (Slot.of t w)).relocate base) := by
  rw [← stores.cell _ _ (Layout.word_cell block t found)]
  congr 1
  omega

theorem end_lt (stores : h.Stores t es base) (block : BlockAt es o e) :
    base + o + (contentOf e).length < h.top := by
  cases size : (contentOf e).length with
  | zero => exact lt_top_of_get? (stores.header block)
  | succ n =>
    have last : (contentOf e)[n]? = some (contentOf e)[n] :=
      List.getElem?_eq_getElem (by omega)
    have inside := lt_top_of_get? (stores.word block last)
    omega

theorem openCell_ref (stores : h.Stores t es base) (block : BlockAt es o e) :
    h.openCell t (.structRef (base + o)) =
      .ok (.block (base + o) (h.span (base + o + 1) (contentOf e).length)) := by
  have inside := stores.end_lt block
  have limit := h.top_lt
  have value : (Cell.structRef (base + o)).isVar = false :=
    Cell.not_isVar_of_tag (Cell.tag_structRef _) (by decide) (by decide)
  rw [openCell, deref_of_value value, Halt.ok_bind, Cell.tag_structRef]
  dsimp only
  rw [Cell.addr_structRef (by omega)]
  exact openStructure_of_header (stores.header block) inside

/-- A variable without an equation is read as the label of its first mention. -/
theorem termAt_free {name : String} (stores : h.Stores t es base) (block : BlockAt es o e)
    (found : (contentOf e)[i]? = some (.var name)) (free : (layoutOf t es).anchorOf? name = none)
    (shown : variableLabel? es base name = some x) :
    h.termAt t depth opens (((layoutOf t es).resolve name (o + 1 + i)).relocate base) = .ok x := by
  rcases Layout.resolve_cases (t := t) block found with
    ⟨f, ws, anchored, -, -⟩ | ⟨f, -, first, below, root, e⟩
  · rw [free] at anchored
    cases anchored
  rw [variableLabel?_eq first free block found, Option.some.injEq] at shown
  have stored := stores.cell f _ root
  have bound := lt_top_of_get? stored
  have limit := h.top_lt
  generalize mention : (layoutOf t es).resolve name (o + 1 + i) = c at e
  have isVar : c.isVar = true := by
    rw [e]
    exact Layout.isVar_mention f _
  have start : c.addr = f := by
    rw [e]
    exact Layout.addr_mention (by omega) _
  have addr : (c.relocate base).addr = base + f := by
    rw [Cell.addr_relocate (Cell.isInternalRef_iff.mpr (.inl isVar)) (by omega), start,
      Nat.add_comm]
  rw [Cell.relocate_var (by omega), Nat.add_comm f base, ← addr] at stored
  have ended := Heap.deref_of_root ((Cell.isVar_relocate _ base).trans isVar)
    (by rw [addr]; omega) stored
  rw [← shown, ← addr]
  apply termAt_leaf
  rw [openCell, ended, Halt.ok_bind, Cell.tag_var]
  dsimp only
  rw [Cell.addr_var (by rw [addr]; omega)]

theorem termAt_word (stores : h.Stores t es base) (block : BlockAt es o e)
    (found : (contentOf e)[i]? = some w)
    (deeper : ∀ f name ws, BlockAt es f (.holds name :: ws) → inner ws = some x →
      h.termAt t depth opens (.structRef (base + f)) = .ok x)
    (shown : w.termWith es base inner = some x) :
    h.termAt t depth opens
      (((layoutOf t es).slotCell (o + 1 + i) (Slot.of t w)).relocate base) = .ok x := by
  have member := block.word_mem found
  cases w with
  | const name =>
    obtain ⟨id, known⟩ := stores.plain _ member
    cases shown
    rw [Slot.of, known, Option.getD_some, Layout.slotCell,
      Cell.relocate_of_tag (.inl (Cell.tag_constant id))]
    exact termAt_constant (stores.sound.lookup_eq_some.mp known)
  | number n =>
    obtain ⟨lower, upper⟩ := stores.number n member
    cases shown
    rw [Slot.of, Layout.slotCell, Cell.relocate_of_tag (.inr (.inl (Cell.tag_number n)))]
    exact termAt_number lower upper
  | var name =>
    rw [Slot.of, Layout.slotCell]
    unfold Word.termWith at shown
    dsimp only at shown
    rcases equation?_cases stores.unambiguous name with
      ⟨f, ws, equation, anchored, target⟩ | ⟨free, unanchored⟩
    · rw [equation] at shown
      have inside := stores.end_lt target
      have limit := h.top_lt
      have ref : (layoutOf t es).resolve name (o + 1 + i) = .structRef f := by
        rw [Layout.resolve, anchored]
      rw [ref, Cell.relocate_structRef (by omega), Nat.add_comm]
      exact deeper f name ws target shown
    · rw [free] at shown
      exact stores.termAt_free block found unanchored shown
  | holds name => exact (stores.plain _ member).elim
  | lists name => exact (stores.plain _ member).elim

theorem mapM_of_forall₂ {f : Cell → Except Halt Term} {g : Word → Option Term} {cs : List Cell}
    {ws : List Word} {xs : List Term} (cells : cs.length = ws.length)
    (terms : List.Forall₂ (fun w x => g w = some x) ws xs)
    (each : ∀ (i : Nat) c w x, cs[i]? = some c → ws[i]? = some w → xs[i]? = some x →
      g w = some x → f c = .ok x) : cs.mapM f = .ok xs := by
  induction terms generalizing cs with
  | nil =>
    obtain rfl := List.length_eq_zero_iff.mp cells
    rfl
  | @cons w x ws xs term _ ih =>
    obtain ⟨c, cs, rfl⟩ := List.exists_cons_of_length_eq_add_one cells
    rw [List.mapM_cons, each 0 c w x rfl rfl rfl term, Halt.ok_bind,
      ih (Nat.succ.inj cells) fun i => each (i + 1)]
    rfl

/-- The block of an element is read as the array of its words. -/
theorem termAt_block (stores : h.Stores t es base) (block : BlockAt es o e)
    (shown : arrayWithin es base depth (contentOf e) = some x) (above : Above es base opens x) :
    h.termAt t depth opens (.structRef (base + o)) = .ok x := by
  induction depth generalizing o e opens x with
  | zero => cases shown
  | succ depth ih =>
    obtain ⟨xs, rfl, terms⟩ := arrayWithin_succ.mp shown
    have inside := stores.end_lt block
    rw [Heap.termAt_block (stores.openCell_ref block) (above.new block shown)]
    rw [mapM_of_forall₂ (length_span (by omega)) terms, Halt.ok_bind]
    intro i c w x cell word item term
    have short := (List.getElem?_eq_some_iff.mp word).choose
    rw [getElem?_span short, stores.word block word, Option.some.injEq] at cell
    subst cell
    refine stores.termAt_word block word (fun f name ws equation deeper => ?_) term
    exact ih equation deeper (above.item block shown (List.mem_of_getElem? item))

theorem readout (stores : h.Stores t es base) (block : BlockAt es o e)
    (shown : arrayWithin es base (maxDepth + 1) (contentOf e) = some x) :
    h.readout t (.structRef (base + o)) = .ok x := by
  rw [readout_eq]
  exact stores.termAt_block block shown (.nil es base x)

end Heap.Stores

end HornMachine
