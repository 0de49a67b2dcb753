import HornMachine.Proofs.Solutions
import HornMachine.Proofs.Valuations

/-!
# What unification of terms solves

Over the terms of the heap, constants are told apart by their names, which are distinct
as long as every symbol has a number of its own. The elements of a closed region are a
region of equations: its solutions are the valuations that are consistent with it, and
unification decides whether the goal and the head have one in common.
-/
namespace HornMachine

variable {symbols : Symbols} {lo : Nat} {v : Nat → Term} {start : Heap} {c : Cell}

/-- Terms as trees: constants stand for their names, numbers for their values. -/
def Symbols.reading (symbols : Symbols) (sound : symbols.Sound) : Reading Term where
  leaf c :=
    match c.tag with
    | .constant => .label (symbols.nameOf c.payload)
    | .number => .int c.payload
    | _ => .array []
  array := .array
  atom c := c.tag = .number ∨ ∃ s, s < symbols.count ∧ c = .constant s
  leaf_inj := by
    rintro c d (tagC | ⟨s, known, rfl⟩) (tagD | ⟨s', known', rfl⟩) same
    · simp only [tagC, tagD] at same
      exact Cell.eq_of_tag_payload (by rw [tagC]; exact nofun) (tagC.trans tagD.symm)
        (Term.int.inj same)
    · simp only [tagC, Cell.tag_constant] at same
      cases same
    · simp only [tagD, Cell.tag_constant] at same
      cases same
    · obtain ⟨name, resolved⟩ := sound.exists_resolve known
      obtain ⟨name', resolved'⟩ := sound.exists_resolve known'
      simp only [Cell.tag_constant, Symbols.nameOf_constant resolved,
        Symbols.nameOf_constant resolved'] at same
      rw [Symbols.resolve_inj sound.distinct resolved (Term.label.inj same ▸ resolved')]
  leaf_ne := by
    rintro c ts (tag | ⟨s, -, rfl⟩)
    · simp [tag]
    · simp [Cell.tag_constant]
  array_inj := Term.array.inj

namespace Heap

/-- An element of the region from `lo` on lies at `a`. -/
def ElementFrom (h : Heap) (lo a : Nat) : Prop := lo ≤ a ∧ h.HasElement a

variable {h : Heap}

theorem treeOf_eq_value (sound : symbols.Sound) :
    h.treeOf symbols v c = h.value (symbols.reading sound) v c := by
  unfold treeOf value Symbols.reading
  cases tag : c.tag <;> simp only [tag]

theorem IsTerm.inside {R : Nat → Prop} (sound : symbols.Sound)
    (term : h.IsTerm lo symbols.count c)
    (region : ∀ a, lo ≤ a → h.HasElement a → R a) :
    h.Inside (symbols.reading sound) R c where
  var isVar := region _ (term.var isVar).1 (term.var isVar).2
  ref tag := by
    obtain ⟨low, n, block⟩ := term.ref tag
    exact ⟨n, block.1, block.count_le, fun i inside => region _ (by omega) (block.2 i inside)⟩
  atom notVar notRef := by
    rcases term.element.role with isVar | tag | tag | tag
    · simp [notVar] at isVar
    · exact absurd tag notRef
    · exact .inr (term.const tag)
    · exact .inl tag

end Heap

namespace Store

variable {boundary count : Nat} {work : List (Cell × Cell)} {s t : Store}

/-- `v` solves the region and the pairs still to be made equal. -/
structure Solved (symbols : Symbols) (lo : Nat) (v : Nat → Term) (work : List (Cell × Cell))
    (s : Store) : Prop where
  consistent : s.heap.Consistent symbols lo v
  equal : ∀ p ∈ work, s.heap.treeOf symbols v p.1 = s.heap.treeOf symbols v p.2

theorem Within.hasElement_iff (within : Within lo count start work s) {a : Nat} :
    s.heap.HasElement a ↔ start.HasElement a := by
  refine ⟨fun ⟨d, found, element⟩ => ?_, within.keeps.element a⟩
  obtain ⟨c, old⟩ := Heap.exists_get? (within.top ▸ Heap.lt_top_of_get? found)
  cases isVar : c.isVar with
  | true => exact ⟨c, old, Cell.isElement_of_isVar isVar⟩
  | false =>
    obtain rfl := Option.some.inj ((within.keeps.value a c old isVar).symm.trans found)
    exact ⟨c, old, element⟩

theorem Within.consistent_iff (sound : symbols.Sound)
    (within : Within lo count start work s) :
    s.heap.Consistent symbols lo v ↔
      s.heap.SolvedBy (symbols.reading sound) (start.ElementFrom lo) v := by
  constructor
  · intro consistent a c ⟨low, element⟩ found
    obtain ⟨d, found', isElement⟩ := within.hasElement_iff.mpr element
    obtain rfl := Option.some.inj (found.symm.trans found')
    rw [consistent a c low found isElement, Heap.treeOf_eq_value sound]
  · intro solved a c low found isElement
    rw [solved a c ⟨low, within.hasElement_iff.mp ⟨c, found, isElement⟩⟩ found,
      Heap.treeOf_eq_value sound]

theorem Within.confined (sound : symbols.Sound)
    (within : Within lo symbols.count start work s) :
    Confined (symbols.reading sound) (start.ElementFrom lo) work s := by
  have inside {c : Cell} (term : s.heap.IsTerm lo symbols.count c) :
      s.heap.Inside (symbols.reading sound) (start.ElementFrom lo) c :=
    term.inside sound fun a low element => ⟨low, within.hasElement_iff.mp element⟩
  refine ⟨fun a c ⟨low, element⟩ found => ?_, fun p member => ?_⟩
  · obtain ⟨d, found', isElement⟩ := within.hasElement_iff.mpr element
    obtain rfl := Option.some.inj (found.symm.trans found')
    exact inside (within.closed a c low found isElement).1
  · obtain ⟨first, second⟩ := within.terms p member
    exact ⟨inside first, inside second⟩

/-- A unification that ends has decided the system: on success the solutions are
those of the heap it leaves, on failure there are none. -/
theorem Within.solved_unifyAll {fuel : Nat} {unified : Bool} (sound : symbols.Sound)
    (within : Within lo symbols.count start work s)
    (e : Store.unifyAll boundary fuel work s = .ok (unified, t)) :
    Solved symbols lo v work s ↔ unified = true ∧ t.heap.Consistent symbols lo v := by
  have solved : Solved symbols lo v work s ↔
      Solves (symbols.reading sound) (start.ElementFrom lo) v work s := by
    have heap := within.consistent_iff (v := v) sound
    constructor
    · intro solved
      refine ⟨heap.mp solved.consistent, fun p member => ?_⟩
      rw [← Heap.treeOf_eq_value, ← Heap.treeOf_eq_value, solved.equal p member]
    · intro solves
      refine ⟨heap.mpr solves.heap, fun p member => ?_⟩
      rw [Heap.treeOf_eq_value sound, Heap.treeOf_eq_value sound,
        solves.pairs p member]
  rw [solved, (within.confined sound).solves_unifyAll e,
    (within.unifyAll e).consistent_iff sound]

end Store

end HornMachine
