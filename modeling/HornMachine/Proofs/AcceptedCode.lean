import HornMachine.Proofs.LinkedCode

/-!
# Accepted code

What the checks on a clause amount to: they pass exactly when every cell meets
`Allows` at its offset, every goal refers to a header, and the head lies before the
neck, which lies inside the clause.

The cells a copy of the head consists of are closed under references: when no cell
before the neck refers behind it they end at the neck, and else they are the whole
clause. Nothing of the kind is checked of arrays.
-/
namespace HornMachine

namespace LoadError

variable {α : Type} {x : Except LoadError α} {e : LoadError} {r : α} {p : Prop} [Decidable p]

theorem check_bind_eq_ok {check : Except LoadError Unit} :
    (check >>= fun _ => x) = .ok r ↔ check = .ok () ∧ x = .ok r := by
  cases check <;> simp [bind, Except.bind]

theorem unless_eq_ok :
    (if p then throw e >>= fun (_ : Unit) => x else x) = .ok r ↔ ¬p ∧ x = .ok r := by
  by_cases refused : p
  · simp [refused, throw, throwThe, MonadExceptOf.throw, bind, Except.bind]
  · simp [refused]

theorem forM_eq_ok {check : α → Except LoadError Unit} {xs : List α} :
    xs.forM check = .ok () ↔ ∀ x ∈ xs, check x = .ok () := by
  induction xs with
  | nil => simp [List.forM, pure, Except.pure]
  | cons x xs ih =>
    rw [List.forall_mem_cons, ← ih]
    exact check_bind_eq_ok

end LoadError

namespace ClauseCode

/-- What is checked of the cell `c` at offset `a`. -/
@[mk_iff]
structure Allows (code : ClauseCode) (a : Nat) (c : Cell) : Prop where
  resolved : c.tag ≠ .malformed
  inside : c.isInternalRef = true → c.addr < code.size
  header : c.tag = .structRef → code.isHeaderAt c.addr = true
  array : c.tag = .arrayHeader → (a + c.addr) % 2 ^ 64 < code.size

/-- What is checked of a clause. -/
@[mk_iff]
structure Accepted (code : ClauseCode) : Prop where
  neck_le : code.neck ≤ code.size
  goal : ∀ g ∈ code.goals, g.tag = .structRef ∧ code.isHeaderAt g.addr = true
  head : ∃ head body, code.goals = head :: body ∧ head.addr < code.neck
  cell : ∀ a c, code.cells[a]? = some c → code.Allows a c

variable {code : ClauseCode} {a n : Nat} {c : Cell}

theorem isHeaderAt_iff :
    code.isHeaderAt a = true ↔ ∃ c, code.cells[a]? = some c ∧ c.tag = .arrayHeader := by
  unfold isHeaderAt
  cases code.cells[a]? <;> simp

theorem checkGoal_eq_ok :
    code.checkGoal c = .ok () ↔ c.tag = .structRef ∧ code.isHeaderAt c.addr = true := by
  unfold checkGoal
  split <;> simp_all

theorem checkCell_eq_ok : code.checkCell c a = .ok () ↔ code.Allows a c := by
  have internal : c.isInternalRef = true ↔
      c.tag = .unboundVar ∨ c.tag = .varRef ∨ c.tag = .structRef := by
    rw [Cell.isInternalRef_iff, Cell.isVar_iff, or_assoc]
  rw [allows_iff, internal]
  unfold checkCell
  cases tag : c.tag with
  | structRef =>
    dsimp only
    split
    · split <;> simp_all
    · simp_all
  | _ => simp

theorem validate_eq_ok : code.validate = .ok () ↔ code.Accepted := by
  rw [accepted_iff]
  unfold validate
  cases goals : code.goals with
  | nil => simp
  | cons head body =>
    have head_lt : (∃ first rest, head :: body = first :: rest ∧ first.addr < code.neck) ↔
        ¬ code.neck ≤ head.addr := by simp
    have cells : (∀ p ∈ code.cells.toList.zipIdx, code.checkCell p.1 p.2 = .ok ()) ↔
        ∀ a c, code.cells[a]? = some c → code.Allows a c := by
      simp only [checkCell_eq_ok, List.mem_zipIdx_iff_getElem?, Array.getElem?_toList]
      exact ⟨fun each a c found => each (c, a) found, fun each p found => each p.2 p.1 found⟩
    dsimp only
    rw [LoadError.unless_eq_ok, LoadError.check_bind_eq_ok, LoadError.unless_eq_ok,
      LoadError.forM_eq_ok, LoadError.forM_eq_ok, Nat.not_lt, head_lt, cells]
    simp only [checkGoal_eq_ok]

theorem headReachesBody_eq_false : code.headReachesBody = false ↔
    ∀ a c, a < code.neck → code.cells[a]? = some c → c.isInternalRef = true →
      c.addr < code.neck := by
  simp only [headReachesBody, List.any_eq_false, List.mem_iff_getElem?, List.getElem?_take,
    Array.getElem?_toList, Bool.and_eq_true, decide_eq_true_eq, not_and, Nat.not_le]
  constructor
  · intro each a c inside found
    exact each c ⟨a, by rw [if_pos inside, found]⟩
  · rintro each c ⟨a, found⟩
    split at found
    · next inside => exact each a c inside found
    · cases found

namespace Accepted

theorem neck_le_headLen (accepted : code.Accepted) : code.neck ≤ code.headLen := by
  unfold headLen
  split
  · exact accepted.neck_le
  · exact Nat.le_refl _

theorem headLen_le (accepted : code.Accepted) : code.headLen ≤ code.size := by
  unfold headLen
  split
  · exact Nat.le_refl _
  · exact accepted.neck_le

theorem part_le (accepted : code.Accepted) (part : n = code.headLen ∨ n = code.size) :
    n ≤ code.size := by
  rcases part with rfl | rfl
  · exact accepted.headLen_le
  · exact Nat.le_refl _

theorem size_pos (accepted : code.Accepted) : 0 < code.size := by
  obtain ⟨head, body, -, before⟩ := accepted.head
  have := accepted.neck_le
  omega

theorem exists_target (accepted : code.Accepted) (found : code.cells[a]? = some c)
    (ref : c.isInternalRef = true) : ∃ d, code.cells[c.addr]? = some d :=
  ⟨_, Array.getElem?_eq_getElem ((accepted.cell a c found).inside ref)⟩

/-- The cells that are copied for the head, like those of the whole clause, refer to
each other only. -/
theorem addr_lt (accepted : code.Accepted) (part : n = code.headLen ∨ n = code.size)
    (inside : a < n) (found : code.cells[a]? = some c) (ref : c.isInternalRef = true) :
    c.addr < n := by
  have whole := (accepted.cell a c found).inside ref
  rcases part with rfl | rfl
  · unfold headLen at inside ⊢
    split at inside
    · next reaches =>
      rw [if_pos reaches]
      exact whole
    · next apart =>
      rw [if_neg apart]
      exact headReachesBody_eq_false.mp (by simpa using apart) a c inside found ref
  · exact whole

theorem exists_next {h k : Heap} (accepted : code.Accepted) (copied : code.Copied code.size h k)
    (found : code.cells[a]? = some c) (isVar : (c.relocate h.top).isVar = true) :
    c.isVar = true ∧ ∃ d, code.cells[c.addr]? = some d ∧
      (c.relocate h.top).addr = h.top + c.addr ∧
      k.get? (c.relocate h.top).addr = some (d.relocate h.top) := by
  rw [Cell.isVar_relocate] at isVar
  have ref := Cell.isInternalRef_iff.mpr (.inl isVar)
  obtain ⟨d, target⟩ := accepted.exists_target found ref
  have inside := lt_size_of_getElem? target
  have moved := copied.addr ref target inside
  exact ⟨isVar, d, target, moved, by rw [moved, copied.get? target inside]⟩

end Accepted

end ClauseCode

end HornMachine
