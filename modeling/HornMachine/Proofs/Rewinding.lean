import HornMachine.Proofs.HeapView
import Mathlib.Data.List.Induction

/-!
# Rewinding a store

One store extends another when the trail got longer, no cell was lost, and every
cell below the old top that differs now was an unbound variable and is logged.
Going back to the old mark and the old top then gives the old store, cell for
cell. Appending cells and binding a logged variable keep this, and so does an
unlogged binding above the old top.

Binding is only sound for a variable that points at itself with the role of an
unbound variable, since that is what unwinding writes. `Rooted` says that no
other variable cell points at itself. It survives bindings and clause copies,
whatever the copied cells refer to.
-/
namespace HornMachine

/-- Undoing the newest entries, given as `log`, resets exactly those variables. -/
theorem Trail.undo_append (log : List Nat) {t : Trail} {h : Heap} {base : List Nat}
    (entries : t.addrs.toList = base ++ log) (inside : ∀ a ∈ log, a < h.top) :
    ∃ k : Heap, Trail.undo log.length t h = .ok (⟨base.toArray⟩, k) ∧ k.top = h.top ∧
      ∀ b, k.get? b = if b ∈ log then some (Cell.var b) else h.get? b := by
  induction log using List.reverseRecOn generalizing t h with
  | nil =>
    refine ⟨h, ?_, rfl, by simp⟩
    cases t
    simp only [List.append_nil] at entries
    simp [Trail.undo, ← entries]
  | append_singleton log a ih =>
    obtain ⟨k, written⟩ := Heap.exists_write (inside a (by simp)) (Cell.var a)
    have last : t.addrs.back? = some a := by
      have list : t.addrs.toList.toArray = t.addrs := Array.toArray_toList
      rw [← list, entries]
      simp
    have shorter : (⟨t.addrs.pop⟩ : Trail).addrs.toList = base ++ log := by
      rw [Array.toList_pop, entries, ← List.append_assoc, List.dropLast_concat]
    have top := Heap.top_write written
    obtain ⟨m, undone, size, cells⟩ := ih shorter
      (fun b old => top ▸ inside b (by simp [old]))
    refine ⟨m, ?_, size.trans top, ?_⟩
    · rw [List.length_append, List.length_singleton]
      simp only [Trail.undo, last, written, Halt.ok_bind]
      exact undone
    · intro b
      rw [cells, Heap.get?_write written]
      by_cases old : b ∈ log <;> by_cases same : b = a <;> simp [old, same]

namespace Heap

/-- The only variable cells that point at themselves are unbound variables. -/
def Rooted (h : Heap) : Prop :=
  ∀ (a : Nat) (c : Cell), h.get? a = some c → c.isVar = true → c.addr = a → c = Cell.var a

theorem Rooted.write {h k : Heap} {a : Nat} {v : Cell} (rooted : h.Rooted)
    (written : h.write a v = .ok k) (other : v.isVar = true → v.addr ≠ a) : k.Rooted := by
  intro b c found isVar self
  rw [get?_write written] at found
  split at found
  · next same =>
    cases found
    exact absurd (self.trans same) (other isVar)
  · exact rooted b c found isVar self

theorem Rooted.copy {h k : Heap} {start len : Nat} (rooted : h.Rooted)
    (inside : start + len ≤ h.top)
    (copied : k.toList = h.toList ++ (h.span start len).map (·.relocate (h.top - start))) :
    k.Rooted := by
  intro a c found isVar self
  have bound := lt_top_of_get? found
  have limit := k.top_lt
  have size := top_append copied
  rw [List.length_map, length_span inside] at size
  rw [get?_append copied] at found
  split at found
  · exact rooted a c found isVar self
  · next above =>
    rw [List.getElem?_map, getElem?_span (by omega)] at found
    obtain ⟨d, source, rfl⟩ := Option.map_eq_some_iff.mp found
    rw [Cell.isVar_relocate] at isVar
    have same : start + (a - h.top) + (h.top - start) = a := by omega
    have payload := Cell.payload_of_addr_relocate (Cell.isInternalRef_iff.mpr (.inl isVar))
      (a := start + (a - h.top)) (by rw [self, same]) (by omega)
    rw [rooted _ d source isVar (Cell.addr_eq_of_payload payload),
      Cell.relocate_var (by omega), same]

end Heap

namespace Store

theorem bind_eq_ok {s t : Store} {boundary a : Nat} {v : Cell} :
    s.bind boundary a v = .ok t ↔ s.heap.write a v = .ok t.heap ∧
      t.trail = if a ≤ boundary then s.trail.push a else s.trail := by
  obtain ⟨h, trail⟩ := s
  obtain ⟨k, trail'⟩ := t
  simp only [bind, Halt.bind_eq_ok, Except.ok.injEq, Store.mk.injEq]
  constructor
  · rintro ⟨m, written, rfl, rfl⟩
    exact ⟨written, rfl⟩
  · rintro ⟨written, rfl⟩
    exact ⟨k, written, rfl, rfl⟩

theorem exists_unwind {s : Store} {t : Trail} {log : List Nat}
    (entries : s.trail.addrs.toList = t.addrs.toList ++ log)
    (inside : ∀ a ∈ log, a < s.heap.top) :
    ∃ k : Heap, s.unwind t.mark = .ok ⟨k, t⟩ ∧ k.top = s.heap.top ∧
      ∀ b, k.get? b = if b ∈ log then some (Cell.var b) else s.heap.get? b := by
  obtain ⟨k, undone, size, cells⟩ := Trail.undo_append log entries inside
  have count : s.trail.mark - t.mark = log.length := by
    have lengths := congrArg List.length entries
    simp only [Array.length_toList, List.length_append] at lengths
    simp only [Trail.mark]
    omega
  refine ⟨k, ?_, size, cells⟩
  obtain ⟨h, trail⟩ := s
  simp only [Store.unwind, Trail.unwind, count, undone, Halt.ok_bind, Array.toArray_toList]

/-- `t` goes on from `s` with the bindings in `log`. -/
structure Extension (s t : Store) (log : List Nat) : Prop where
  entries : t.trail.addrs.toList = s.trail.addrs.toList ++ log
  top_le : s.heap.top ≤ t.heap.top
  inside : ∀ a ∈ log, a < t.heap.top
  unbound : ∀ a ∈ log, a < s.heap.top → s.heap.get? a = some (Cell.var a)
  kept : ∀ a, a < s.heap.top → a ∉ log → t.heap.get? a = s.heap.get? a

def Extends (s t : Store) : Prop := ∃ log, Extension s t log

theorem Extends.refl (s : Store) : Extends s s :=
  ⟨[], by simp, Nat.le_refl _, by simp, by simp, fun _ _ _ => rfl⟩

theorem Extends.top_le {s t : Store} (e : Extends s t) : s.heap.top ≤ t.heap.top :=
  e.choose_spec.top_le

/-- Going back to the old mark and the old top restores the old store. -/
theorem Extends.restore {s t : Store} (e : Extends s t) :
    t.restore s.trail.mark s.heap.top = .ok s := by
  obtain ⟨log, e⟩ := e
  obtain ⟨k, undone, -, cells⟩ := exists_unwind e.entries e.inside
  have heap : k.truncate s.heap.top = s.heap := by
    apply Heap.eq_of_get?
    intro a
    rw [Heap.get?_truncate, cells]
    split
    · next below =>
      split
      · next logged => exact (e.unbound a logged below).symm
      · next free => exact e.kept a below free
    · next above => exact (Heap.get?_eq_none (Nat.le_of_not_lt above)).symm
  obtain ⟨h, trail⟩ := s
  simp only [Store.restore, undone, Halt.ok_bind, truncate, heap]
  rfl

theorem Extends.append {s : Store} {h k : Heap} {trail : Trail} {cs : List Cell}
    (e : Extends s ⟨h, trail⟩) (appended : k.toList = h.toList ++ cs) :
    Extends s ⟨k, trail⟩ := by
  obtain ⟨log, e⟩ := e
  have grown : h.top ≤ k.top := by
    rw [Heap.top_append appended]
    omega
  refine ⟨log, e.entries, e.top_le.trans grown, fun a l => (e.inside a l).trans_le grown,
    e.unbound, ?_⟩
  intro a below free
  have old := e.kept a below free
  have bound : a < h.top := Nat.lt_of_lt_of_le below e.top_le
  dsimp only at old ⊢
  rw [Heap.get?_append appended, if_pos bound, old]

theorem Extends.bind {s t u : Store} {boundary a : Nat} {v : Cell} (e : Extends s t)
    (free : t.heap.get? a = some (Cell.var a)) (logged : a < s.heap.top → a ≤ boundary)
    (bound : t.bind boundary a v = .ok u) : Extends s u := by
  obtain ⟨log, e⟩ := e
  obtain ⟨written, trail⟩ := bind_eq_ok.mp bound
  have size := Heap.top_write written
  have before : a < s.heap.top → s.heap.get? a = some (Cell.var a) := by
    intro below
    by_cases old : a ∈ log
    · exact e.unbound a old below
    · rw [← e.kept a below old, free]
  have others : ∀ b, b < s.heap.top → b ∉ log → b ≠ a → u.heap.get? b = s.heap.get? b := by
    intro b below old other
    rw [Heap.get?_write written, if_neg other, e.kept b below old]
  by_cases low : a ≤ boundary
  · refine ⟨log ++ [a], ?_, size ▸ e.top_le, ?_, ?_, ?_⟩
    · rw [trail, if_pos low, Trail.push, Array.toList_push, e.entries, List.append_assoc]
    · intro b member
      rw [size]
      rcases List.mem_append.mp member with old | new
      · exact e.inside b old
      · rw [List.mem_singleton.mp new]
        exact Heap.lt_top_of_get? free
    · intro b member below
      rcases List.mem_append.mp member with old | new
      · exact e.unbound b old below
      · rw [List.mem_singleton.mp new] at below ⊢
        exact before below
    · intro b below new
      simp only [List.mem_append, List.mem_singleton, not_or] at new
      exact others b below new.1 new.2
  · refine ⟨log, ?_, size ▸ e.top_le, fun b l => size ▸ e.inside b l, e.unbound, ?_⟩
    · rw [trail, if_neg low, e.entries]
    · intro b below old
      refine others b below old ?_
      rintro rfl
      exact low (logged below)

end Store

end HornMachine
