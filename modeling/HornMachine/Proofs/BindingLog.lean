import HornMachine.Proofs.UnificationTurn
import Mathlib.Data.List.Nodup

/-!
# What unification logs

However a unification ends, the store it leaves differs from the one it was given
only in bindings of variables that were unbound, and the trail has grown by the
addresses at or below the boundary that were bound, each once. A bound variable
never becomes the end of a chain again, so no address is bound, or logged, twice.

Unwinding the new entries therefore undoes every change at or below the boundary,
also after a clash, which leaves the bindings made so far in place. What was bound
above the boundary stays bound.
-/
namespace HornMachine.Store

/-- `t` has come from `s` by bindings, of which `log` lists those at or below the
boundary. -/
structure Binds (boundary : Nat) (s t : Store) (log : List Nat) : Prop where
  top : t.heap.top = s.heap.top
  entries : t.trail.addrs.toList = s.trail.addrs.toList ++ log
  distinct : log.Nodup
  /-- Only unbound variables have changed. -/
  unbound : ∀ a, t.heap.get? a ≠ s.heap.get? a → s.heap.get? a = some (Cell.var a)
  /-- The log lists the changes at or below the boundary. -/
  logged : ∀ a, a ∈ log ↔ a ≤ boundary ∧ t.heap.get? a ≠ s.heap.get? a

variable {boundary fuel a : Nat} {s t u : Store} {log : List Nat} {goal head e : Cell}
  {unified : Bool}

theorem Binds.refl (boundary : Nat) (s : Store) : Binds boundary s s [] where
  top := rfl
  entries := (List.append_nil _).symm
  distinct := List.nodup_nil
  unbound a changed := absurd rfl changed
  logged a := by simp

theorem Binds.same_of_root (binds : Binds boundary s t log)
    (free : t.heap.get? a = some (Cell.var a)) : s.heap.get? a = some (Cell.var a) := by
  by_cases same : t.heap.get? a = s.heap.get? a
  · rw [← same, free]
  · exact binds.unbound a same

theorem Binds.bind (binds : Binds boundary s t log) (free : t.heap.get? a = some (Cell.var a))
    (other : e ≠ Cell.var a) (bound : t.bind boundary a e = .ok u) :
    ∃ log', Binds boundary s u log' := by
  obtain ⟨written, trail⟩ := bind_eq_ok.mp bound
  have before := binds.same_of_root free
  have changed : u.heap.get? a ≠ s.heap.get? a := by
    rw [Heap.get?_write written, if_pos rfl, before]
    simpa using other
  have elsewhere {b : Nat} (apart : b ≠ a) : u.heap.get? b = t.heap.get? b := by
    rw [Heap.get?_write written, if_neg apart]
  have new : a ∉ log := fun member => ((binds.logged a).mp member).2 (free.trans before.symm)
  have unbound : ∀ b, u.heap.get? b ≠ s.heap.get? b → s.heap.get? b = some (Cell.var b) := by
    intro b differs
    by_cases same : b = a
    · rw [same, before]
    · rw [elsewhere same] at differs
      exact binds.unbound b differs
  have top := (Heap.top_write written).trans binds.top
  by_cases low : a ≤ boundary
  · rw [if_pos low] at trail
    refine ⟨log ++ [a], top, ?_, ?_, unbound, fun b => ?_⟩
    · rw [trail, Trail.push, Array.toList_push, binds.entries, List.append_assoc]
    · rw [← List.concat_eq_append]
      exact binds.distinct.concat new
    · rw [List.mem_append, List.mem_singleton]
      by_cases same : b = a
      · subst same
        exact iff_of_true (.inr rfl) ⟨low, changed⟩
      · rw [elsewhere same, ← binds.logged b]
        exact or_iff_left same
  · rw [if_neg low] at trail
    refine ⟨log, top, by rw [trail, binds.entries], binds.distinct, unbound, fun b => ?_⟩
    by_cases same : b = a
    · subst same
      exact iff_of_false new fun inside => low inside.1
    · rw [elsewhere same]
      exact binds.logged b

/-- A turn only adds bindings. -/
theorem Binds.turn {a b x y : Cell} {work queued : List (Cell × Cell)}
    (binds : Binds boundary s t log) (rooted : t.heap.Rooted) (ax : t.heap.Leads a x)
    (bY : t.heap.Leads b y) (met : Met boundary t work x y (some (queued, u))) :
    (∃ log', Binds boundary s u log') ∧ u.heap.Rooted := by
  cases met with
  | same _ => exact ⟨⟨log, binds⟩, rooted⟩
  | opened _ _ _ _ _ _ => exact ⟨⟨log, binds⟩, rooted⟩
  | @bound v e _ other sides isVar _ binding =>
    obtain ⟨root, apart⟩ := bound_root ax bY other sides isVar
    have free : v = Cell.var v.addr := rooted _ v root isVar rfl
    refine ⟨binds.bind (free ▸ root) ?_ binding,
      rooted.write (bind_eq_ok.mp binding).1 apart⟩
    rw [← free]
    rcases sides with ⟨rfl, rfl⟩ | ⟨rfl, rfl⟩
    · exact other.symm
    · exact other

/-- Unwinding to the old mark takes back what was logged and nothing else. -/
theorem Binds.unwind (binds : Binds boundary s t log) :
    ∃ u, t.unwind s.trail.mark = .ok u ∧ u.trail = s.trail ∧ u.heap.top = s.heap.top ∧
      (∀ a ≤ boundary, u.heap.get? a = s.heap.get? a) ∧ (s.heap.top ≤ boundary → u = s) := by
  have changed {a : Nat} (member : a ∈ log) : s.heap.get? a = some (Cell.var a) :=
    binds.unbound a ((binds.logged a).mp member).2
  have inside : ∀ a ∈ log, a < t.heap.top := by
    intro a member
    rw [binds.top]
    exact Heap.lt_top_of_get? (changed member)
  obtain ⟨k, undone, size, cells⟩ := exists_unwind binds.entries inside
  have below : ∀ a ≤ boundary, k.get? a = s.heap.get? a := by
    intro a low
    rw [cells]
    split
    · next member => exact (changed member).symm
    · next absent =>
      by_contra differs
      exact absent ((binds.logged a).mpr ⟨low, differs⟩)
  refine ⟨⟨k, s.trail⟩, undone, rfl, size.trans binds.top, below, fun all => ?_⟩
  have heap : k = s.heap := by
    apply Heap.eq_of_get?
    intro a
    by_cases low : a ≤ boundary
    · exact below a low
    · have := size.trans binds.top
      rw [Heap.get?_eq_none (by omega), Heap.get?_eq_none (by omega)]
  rw [heap]

/-- A unification that returns has only bound unbound variables. It has logged those
at or below the boundary, each once, and unwinding to the mark taken before brings
back the trail and every cell at or below the boundary. -/
theorem logs_of_unify
    (tagged : ∀ a c, s.heap.get? a = some c → c.isVar = true → c.addr = a → c.tag = .unboundVar)
    (returned : s.unify fuel boundary goal head = .ok (unified, t)) :
    (∃ log, Binds boundary s t log) ∧
      ∃ u, t.unwind s.trail.mark = .ok u ∧ u.trail = s.trail ∧ u.heap.top = s.heap.top ∧
        (∀ a ≤ boundary, u.heap.get? a = s.heap.get? a) ∧ (s.heap.top ≤ boundary → u = s) := by
  have rooted : s.heap.Rooted := fun a c found isVar self =>
    Cell.eq_make (by decide) (tagged a c found isVar self) self
      (Nat.lt_trans (Heap.lt_top_of_get? found) s.heap.top_lt)
  obtain ⟨-, ⟨⟨log, binds⟩, -⟩, -⟩ := unifyAll_keeps
    (I := fun _ u => (∃ log, Binds boundary s u log) ∧ u.heap.Rooted)
    (fun kept ax bY met => kept.1.choose_spec.turn kept.2 ax bY met)
    ⟨⟨[], .refl boundary s⟩, rooted⟩ returned
  exact ⟨⟨log, binds⟩, binds.unwind⟩

/-- The head `f(V, b, 2)` clashes with the goal `f(X, Y, 1)` once `V` and `Y` are
bound, and only the address of `Y` is logged. -/
def clashing : Store where
  heap := ⟨#[.header 4, .constant 0, .var 2, .var 3, .number 1,
    .header 4, .constant 0, .var 7, .constant 1, .number 2], by decide⟩
  trail := ⟨#[0]⟩

theorem logs_of_unify_clashing :
    (∀ a c, clashing.heap.get? a = some c → c.isVar = true → c.addr = a →
      c.tag = .unboundVar) ∧
    ∃ t, clashing.unify 9 3 (.structRef 0) (.structRef 5) = .ok (false, t) ∧
      t.trail.addrs = #[0, 3] ∧ t.heap.get? 7 = some (.var 2) ∧
      (∃ log, Binds 3 clashing t log) ∧
      ∃ u, t.unwind clashing.trail.mark = .ok u ∧ u.trail = clashing.trail ∧
        u.heap.top = clashing.heap.top ∧
        (∀ a ≤ 3, u.heap.get? a = clashing.heap.get? a) ∧
        (clashing.heap.top ≤ 3 → u = clashing) := by
  have roots : ∀ a < clashing.heap.top, ∀ c ∈ clashing.heap.get? a, c.isVar = true →
      c.addr = a → c.tag = .unboundVar := by
    decide +kernel
  have tagged := fun a c (found : clashing.heap.get? a = some c) =>
    roots a (Heap.lt_top_of_get? found) c found
  have clash : (clashing.unify 9 3 (.structRef 0) (.structRef 5)).toOption.any (fun r =>
      decide (r.1 = false ∧ r.2.trail.addrs = #[0, 3] ∧ r.2.heap.get? 7 = some (.var 2))) =
        true := by
    decide +kernel
  obtain ⟨⟨unified, t⟩, returned, check⟩ := exists_ok_of_any clash
  obtain ⟨rfl, trail, bound⟩ := of_decide_eq_true check
  exact ⟨tagged, t, returned, trail, bound, logs_of_unify tagged returned⟩

end HornMachine.Store
