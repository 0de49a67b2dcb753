import HornMachine.Proofs.Templates
import HornMachine.Proofs.Unifiers

/-!
# Copying a whole clause at once

An attempt copies the complete code of a clause before it unifies the head. The
machine copies the head first and the rest only on success, from a template
instead of the code. Above a safe heap the two come to the same: the template is
as it was stored, and unification does not look at cells that are not reached
from the goal and the head.
-/
namespace HornMachine

/-- Copy the code on top of a heap and unify its head with the goal. -/
def ClauseCode.attempt (code : ClauseCode) (fuel : Nat) (goal : Cell) (h : Heap) :
    Except Halt (Bool × Heap) := do
  let full ← h.pushRelocated h.top code.cells.toList
  let (unified, s) ← Store.unify ⟨full, {}⟩ fuel h.top goal (code.head.relocate h.top)
  return (unified, s.heap)

theorem ClauseCode.attempt_eq_ok {code : ClauseCode} {fuel : Nat} {goal : Cell} {h k : Heap}
    {unified : Bool} :
    code.attempt fuel goal h = .ok (unified, k) ↔ ∃ full s, code.Copied code.size h full ∧
      Store.unify ⟨full, {}⟩ fuel h.top goal (code.head.relocate h.top) = .ok (unified, s) ∧
      s.heap = k := by
  simp only [attempt, Halt.bind_eq_ok, Heap.pushRelocated_eq_ok, ← copied_size,
    Halt.pure_eq_ok, Prod.mk.injEq]
  constructor
  · rintro ⟨full, copied, ⟨_, s⟩, e, rfl, same⟩
    exact ⟨full, s, copied, e, same⟩
  · rintro ⟨full, s, copied, e, same⟩
    exact ⟨full, copied, (unified, s), e, rfl, same⟩

theorem ClauseCode.Copied.split {code : ClauseCode} {n : Nat} {h k m : Heap}
    (whole : code.Copied code.size h m) (part : code.Copied n h k) :
    m.toList = k.toList ++ (code.cells.toList.drop n).map (·.relocate h.top) := by
  rw [copied_size] at whole
  unfold Copied at part
  rw [whole, part, List.append_assoc, ← List.map_append, List.take_append_drop]

theorem Heap.exists_shorter {h k : Heap} {cs ds : List Cell}
    (e : k.toList = h.toList ++ (cs ++ ds)) : ∃ m : Heap, m.toList = h.toList ++ cs := by
  have bound := k.top_lt
  have size := top_append e
  rw [List.length_append] at size
  refine ⟨⟨(h.toList ++ cs).toArray, ?_⟩, by simp [toList]⟩
  simp only [List.size_toArray, List.length_append, length_toList]
  omega

variable {p : Program} {w : Codes} {code : ClauseCode} {h k : Heap} {goal : Cell}
  {n id fuel : Nat} {t u : Store} {unified : Bool}

namespace Heap.Safe

theorem within (safe : h.Safe w) (usable : code.Usable w.count) (cut : code.Cut n)
    (inside : code.head.addr < n) (copied : code.Copied n h k)
    (term : h.IsTerm w.floor w.count goal) (trail : Trail) :
    Store.Within w.floor w.count k [(goal, code.head.relocate h.top)] ⟨k, trail⟩ where
  closed := copied.closed usable.linked cut safe.low safe.closed
  rooted := copied.rooted usable.linked cut safe.rooted
  keeps := .refl _ _
  top := rfl
  terms := by
    intro pair member
    obtain rfl := List.mem_singleton.mp member
    obtain ⟨tag, m, block⟩ := usable.head_block
    exact ⟨term.mono (.append copied), (copied.refTerm cut safe.low tag block inside).1⟩

theorem unify {copied : Heap} {s : Store} {trail : Trail} (safe : h.Safe w)
    (usable : code.Usable w.count) (cut : code.Cut n) (inside : code.head.addr < n)
    (copy : code.Copied n h copied) (term : h.IsTerm w.floor w.count goal)
    (e : Store.unify ⟨copied, trail⟩ fuel h.top goal (code.head.relocate h.top) =
      .ok (unified, s)) :
    s.heap.Safe w ∧ Heap.Keeps w.floor copied s.heap ∧ s.heap.top = copied.top := by
  have final := (safe.within usable cut inside copy term trail).unifyAll e
  have keeps := (Heap.Keeps.append copy).trans final.keeps
  have top := Heap.top_append copy
  refine ⟨safe.mono keeps final.rooted final.closed ?_, final.keeps, final.top⟩
  rw [final.top]
  omega

theorem attempted (safe : h.Safe w) (usable : code.Usable w.count)
    (term : h.IsTerm w.floor w.count goal) (e : code.attempt fuel goal h = .ok (unified, k)) :
    k.Safe w ∧ ∃ full, code.Copied code.size h full ∧ Heap.Keeps w.floor full k ∧
      k.top = full.top := by
  obtain ⟨full, s, whole, unify, rfl⟩ := ClauseCode.attempt_eq_ok.mp e
  obtain ⟨safe', keeps, top⟩ := safe.unify usable usable.linked.cut_size
    (usable.head_lt.trans_le usable.headLen_le) whole term unify
  exact ⟨safe', full, whole, keeps, top⟩

/-- The solutions an attempt leaves are those of the copy in which the goal and the
head stand for one tree. -/
theorem attempt_solved {symbols : Symbols} (safe : h.Safe w) (sound : symbols.Sound)
    (count : w.count = symbols.count)
    (usable : code.Usable w.count) (term : h.IsTerm w.floor w.count goal)
    (e : code.attempt fuel goal h = .ok (unified, k)) :
    ∃ full, code.Copied code.size h full ∧ Heap.Keeps w.floor full k ∧
      ∀ v, full.Consistent symbols w.floor v ∧ full.treeOf symbols v goal =
          full.treeOf symbols v (code.head.relocate h.top) ↔
        unified = true ∧ k.Consistent symbols w.floor v := by
  obtain ⟨full, s, whole, unify, rfl⟩ := ClauseCode.attempt_eq_ok.mp e
  have within := safe.within usable usable.linked.cut_size
    (usable.head_lt.trans_le usable.headLen_le) whole term {}
  have final := within.unifyAll unify
  rw [count] at within
  refine ⟨full, whole, final.keeps, fun v => ?_⟩
  rw [← within.solved_unifyAll sound unify]
  constructor
  · intro ⟨consistent, same⟩
    exact ⟨consistent, fun p member => by rw [List.mem_singleton.mp member]; exact same⟩
  · intro solved
    have same := solved.equal (goal, code.head.relocate h.top) (List.mem_singleton_self _)
    exact ⟨solved.consistent, same⟩

/-! ### Templates and codes -/

theorem base_le (safe : h.Safe w) (rule : w.rules[id]? = some code) : w.base id ≤ h.top := by
  have := Codes.base_add_size_le rule
  have := safe.low
  omega

/-- Part of a template, moved to the top, is that part of the code. -/
theorem span_relocate (safe : h.Safe w) (rule : w.rules[id]? = some code) {top a m : Nat}
    (le : w.base id ≤ top) (inside : a + m ≤ code.size) :
    (h.span (w.base id + a) m).map (·.relocate (top - w.base id)) =
      ((code.cells.toList.drop a).take m).map (·.relocate top) := by
  have part : h.span (w.base id + a) m = ((h.span (w.base id) code.size).drop a).take m := by
    rw [Heap.span, Heap.span, List.drop_take, List.take_take, List.drop_drop,
      Nat.min_eq_left (by omega)]
  rw [part, safe.template id code rule, ← List.map_drop, ← List.map_take,
    Cell.map_relocate_relocate, Nat.add_sub_cancel' le]

theorem copiedHead (safe : t.heap.Safe w) (rule : w.rules[id]? = some code)
    (usable : code.Usable w.count) (positions : Nat) {copied : Heap} :
    (code.clauseAt positions (w.base id)).CopiedHead t copied ↔
      code.Copied code.headLen t.heap copied := by
  have cells := safe.span_relocate rule (safe.base_le rule) (a := 0) (m := code.headLen)
    (by have := usable.headLen_le; omega)
  rw [List.drop_zero, Nat.add_zero] at cells
  unfold Clause.CopiedHead ClauseCode.Copied
  rw [← cells]
  rfl

end Heap.Safe

theorem head_relocate {positions base : Nat} (le : base ≤ t.heap.top) :
    (code.clauseAt positions base).head.relocate ((code.clauseAt positions base).shift t) =
      code.head.relocate t.heap.top := by
  rw [ClauseCode.clauseAt, Clause.shift]
  dsimp only
  rw [Cell.relocate_relocate, Nat.add_sub_cancel' le]

theorem body_relocate {positions base : Nat} (le : base ≤ t.heap.top) :
    (code.clauseAt positions base).body.map
        (·.relocate ((code.clauseAt positions base).shift t)) =
      code.body.map (·.relocate t.heap.top) := by
  rw [ClauseCode.clauseAt, Clause.shift]
  dsimp only
  rw [Cell.map_relocate_relocate, Nat.add_sub_cancel' le]

namespace Heap.Safe

variable {positions : Nat}

/-- Resolving a goal with a rule is an attempt with its code. -/
theorem attempt_of_resolves (safe : t.heap.Safe w) (rule : w.rules[id]? = some code)
    (usable : code.Usable w.count) (term : t.heap.IsTerm w.floor w.count goal)
    (e : (code.clauseAt positions (w.base id)).Resolves fuel goal t u) :
    code.attempt fuel goal t.heap = .ok (true, u.heap) := by
  obtain ⟨copied, s, head, unify, body, -⟩ := e
  have le := safe.base_le rule
  rw [safe.copiedHead rule usable] at head
  rw [head_relocate le] at unify
  obtain ⟨safe', -, top⟩ := safe.unify usable usable.cut usable.head_lt head term unify
  have rest : u.heap.toList = s.heap.toList ++
      (code.cells.toList.drop code.headLen).map (·.relocate t.heap.top) := by
    have cells := safe'.span_relocate rule le (a := code.headLen) (m := code.size - code.headLen)
      (by have := usable.headLen_le; omega)
    rw [List.take_of_length_le (by simp [ClauseCode.size])] at cells
    rw [← cells]
    exact body
  obtain ⟨full, list⟩ : ∃ full : Heap, full.toList = copied.toList ++
      (code.cells.toList.drop code.headLen).map (·.relocate t.heap.top) := by
    have size := Heap.top_append rest
    have bound := u.heap.top_lt
    rw [top] at size
    refine ⟨⟨(copied.toList ++ (code.cells.toList.drop code.headLen).map
      (·.relocate t.heap.top)).toArray, ?_⟩, by simp [Heap.toList]⟩
    simp only [List.size_toArray, List.length_append, Heap.length_toList]
    omega
  have whole : code.Copied code.size t.heap full := by
    rw [ClauseCode.copied_size, list, head, List.append_assoc, ← List.map_append,
      List.take_append_drop]
  have longer : Store.Below _ ⟨copied, t.trail⟩ ⟨full, {}⟩ := list
  obtain ⟨s', unify', below⟩ := Store.unifyAll_append longer t.heap.top unify
  exact ClauseCode.attempt_eq_ok.mpr
    ⟨full, s', whole, unify', Heap.eq_of_toList (below.trans rest.symm)⟩

/-- The outcome of an attempt with the code of a rule is that of resolving with
the rule. -/
theorem outcome_of_attempt (safe : t.heap.Safe w) (positions : Nat) (rule : w.rules[id]? = some code)
    (usable : code.Usable w.count) (term : t.heap.IsTerm w.floor w.count goal)
    (e : code.attempt fuel goal t.heap = .ok (unified, k)) :
    if unified then ∃ u : Store, u.heap = k ∧
      (code.clauseAt positions (w.base id)).Resolves fuel goal t u
    else (code.clauseAt positions (w.base id)).Fails fuel goal t := by
  obtain ⟨full, s', whole, unify', rfl⟩ := ClauseCode.attempt_eq_ok.mp e
  have le := safe.base_le rule
  have list := ClauseCode.copied_size.mp whole
  obtain ⟨copied, head⟩ : ∃ copied, code.Copied code.headLen t.heap copied := by
    have split : full.toList = t.heap.toList ++
        ((code.cells.toList.take code.headLen).map (·.relocate t.heap.top) ++
          (code.cells.toList.drop code.headLen).map (·.relocate t.heap.top)) := by
      rw [list, ← List.map_append, List.take_append_drop]
    exact Heap.exists_shorter split
  have within := safe.within usable usable.cut usable.head_lt head term t.trail
  have longer : Store.Below _ ⟨copied, t.trail⟩ ⟨full, {}⟩ := whole.split head
  obtain ⟨s, unify, below⟩ := within.unifyAll_of_append t.heap.top longer unify'
  have head' := (safe.copiedHead rule usable positions).mpr head
  cases unified with
  | false => exact ⟨copied, s, head', by rw [head_relocate le]; exact unify⟩
  | true =>
    obtain ⟨safe', -, -⟩ := safe.unify usable usable.cut usable.head_lt head term unify
    have cells := safe'.span_relocate rule le (a := code.headLen) (m := code.size - code.headLen)
      (by have := usable.headLen_le; omega)
    rw [List.take_of_length_le (by simp [ClauseCode.size])] at cells
    refine ⟨⟨s'.heap, s.trail⟩, rfl, copied, s, head', by rw [head_relocate le]; exact unify,
      ?_, rfl⟩
    unfold Clause.CopiedBody
    exact below.trans (congrArg (s.heap.toList ++ ·) cells.symm)

end Heap.Safe

end HornMachine
