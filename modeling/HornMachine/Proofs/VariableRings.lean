import HornMachine.Proofs.AcceptedCode
import HornMachine.Proofs.KeyFilter
import Mathlib.Data.Fintype.EquivFin
import Mathlib.Logic.Relation

/-!
# Rings of variables

Accepted code may have variables that refer to each other in a ring. Nothing is checked
of a variable but that it refers into the clause, in either direction, and a chain that
comes to a ring has no end wherever the code is placed.

That is the only way not to end. The offsets are finitely many, so chains that meet no
ring end after as many steps, and dereferencing finds the end. Code without rings is
therefore stored, or refused, without a chain that goes on for ever.
-/
namespace HornMachine

namespace ClauseCode

/-- At offset `a` lies a variable that refers to another offset `b`. -/
def Points (code : ClauseCode) (a b : Nat) : Prop :=
  ∃ c, code.cells[a]? = some c ∧ c.isVar = true ∧ c.addr = b ∧ b ≠ a

/-- Following variables from offset `a` on comes to a ring of them. -/
def RingFrom (code : ClauseCode) (a : Nat) : Prop :=
  ∃ b, Relation.ReflTransGen code.Points a b ∧ Relation.TransGen code.Points b b

/-- The offsets that are met from offset `a` on. -/
def Met (code : ClauseCode) (a : Nat) : Type :=
  { b : Fin code.size // Relation.ReflTransGen code.Points a b }

instance (code : ClauseCode) (a : Nat) : Finite (code.Met a) :=
  inferInstanceAs (Finite { b : Fin code.size // Relation.ReflTransGen code.Points a b })

variable {code : ClauseCode} {a b d : Nat} {c x : Cell} {h k : Heap}

theorem exists_points_of_ringFrom (ring : code.RingFrom a) :
    ∃ b, code.Points a b ∧ code.RingFrom b := by
  obtain ⟨d, path, ring⟩ := ring
  rcases path.cases_head with rfl | ⟨b, points, later⟩
  · obtain ⟨b, points, back⟩ := Relation.TransGen.head'_iff.mp ring
    exact ⟨b, points, a, back, ring⟩
  · exact ⟨b, points, d, later, ring⟩

/-- Where variables can be followed only finitely often there is no ring. -/
theorem not_ringFrom_of_acc (acc : Acc (fun b a => code.Points a b) a) : ¬ code.RingFrom a := by
  induction acc with
  | intro a _ ih =>
    intro ring
    obtain ⟨b, points, again⟩ := exists_points_of_ringFrom ring
    exact ih b points again

/-- Without a ring, variables can be followed only finitely often. -/
theorem Accepted.acc (accepted : code.Accepted) (inside : a < code.size)
    (free : ¬ code.RingFrom a) : Acc (fun b a => code.Points a b) a := by
  have step {a b : Nat} (points : code.Points a b) : b < code.size := by
    obtain ⟨c, found, isVar, rfl, -⟩ := points
    exact (accepted.cell _ c found).inside (Cell.isInternalRef_iff.mpr (.inl isVar))
  have wellFounded : WellFounded fun b d : code.Met a =>
      Relation.TransGen code.Points d.1 b.1 := by
    have : IsTrans (code.Met a) fun b d => Relation.TransGen code.Points d.1 b.1 :=
      ⟨fun _ _ _ first second => second.trans first⟩
    have : Std.Irrefl fun b d : code.Met a => Relation.TransGen code.Points d.1 b.1 :=
      ⟨fun b ring => free ⟨b.1, b.2, ring⟩⟩
    exact Finite.wellFounded_of_trans_of_irrefl _
  have each (b : code.Met a) : Acc (fun b a => code.Points a b) b.1 := by
    induction b using wellFounded.induction with
    | _ b ih =>
      refine .intro _ fun d points => ?_
      exact ih ⟨⟨d, step points⟩, b.2.tail points⟩ (.single points)
  exact each ⟨⟨a, inside⟩, .refl⟩

/-! ### Chains in a copy -/

theorem Accepted.acc_of_leads (accepted : code.Accepted) (copied : code.Copied code.size h k)
    (leads : k.Leads (c.relocate h.top) x) (found : code.cells[a]? = some c) :
    Acc (fun b a => code.Points a b) a := by
  generalize start : c.relocate h.top = e at leads
  induction leads generalizing a c with
  | value notVar =>
    subst start
    refine .intro _ fun b points => ?_
    obtain ⟨c', found', isVar, -⟩ := points
    obtain rfl := Option.some.inj (found.symm.trans found')
    rw [Cell.isVar_relocate, isVar] at notVar
    cases notVar
  | root isVar self =>
    subst start
    obtain ⟨-, d, target, -, there⟩ := accepted.exists_next copied found isVar
    obtain rfl := Cell.relocate_inj (Option.some.inj (self.symm.trans there))
    refine .intro _ fun b points => .intro _ fun b' points' => ?_
    obtain ⟨c', found', -, rfl, -⟩ := points
    obtain rfl := Option.some.inj (found.symm.trans found')
    obtain ⟨c', found', -, rfl, other⟩ := points'
    obtain rfl := Option.some.inj (target.symm.trans found')
    exact absurd rfl other
  | step isVar at' _ _ ih =>
    subst start
    obtain ⟨-, d, target, -, there⟩ := accepted.exists_next copied found isVar
    refine .intro _ fun b points => ?_
    obtain ⟨c', found', -, rfl, -⟩ := points
    obtain rfl := Option.some.inj (found.symm.trans found')
    exact ih target (Option.some.inj (there.symm.trans at'))

theorem Accepted.exists_leads (accepted : code.Accepted) (copied : code.Copied code.size h k)
    (acc : Acc (fun b a => code.Points a b) a) (found : code.cells[a]? = some c) :
    ∃ x, k.Leads (c.relocate h.top) x := by
  induction acc generalizing c with
  | intro a _ ih =>
    refine Heap.exists_leads_of_target fun isVar => ?_
    obtain ⟨isVar', d, target, moved, there⟩ := accepted.exists_next copied found isVar
    by_cases self : c.addr = a
    · have same : d = c := Option.some.inj (target.symm.trans (self ▸ found))
      rw [same] at there
      exact ⟨_, _, there, .root isVar there⟩
    · obtain ⟨x, leads⟩ := ih c.addr ⟨c, found, isVar', rfl, self⟩ target
      exact ⟨_, x, there, leads⟩

theorem Accepted.deref_cases (accepted : code.Accepted) (copied : code.Copied code.size h k)
    (found : code.cells[a]? = some c) :
    (code.RingFrom a → k.deref (c.relocate h.top) = .error .unfinished) ∧
    (¬ code.RingFrom a → ∃ x, k.deref (c.relocate h.top) = .ok x) := by
  constructor
  · intro ring
    have inside := Heap.deref_inside (h := k) (c := c.relocate h.top)
      (P := fun x => ∃ b d, code.cells[b]? = some d ∧ x = d.relocate h.top)
      ⟨a, c, found, rfl⟩ (by
        rintro _ ⟨b, d, source, rfl⟩ isVar
        obtain ⟨-, e, target, -, there⟩ := accepted.exists_next copied source isVar
        exact ⟨_, there, d.addr, e, target, rfl⟩)
    refine inside.resolve_left ?_
    rintro ⟨x, ended⟩
    exact not_ringFrom_of_acc (accepted.acc_of_leads copied (.of_deref ended) found) ring
  · intro free
    obtain ⟨x, leads⟩ :=
      accepted.exists_leads copied (accepted.acc (lt_size_of_getElem? found) free) found
    exact ⟨x, Heap.deref_eq_ok.mpr leads⟩

end ClauseCode

/-! ### Storing code -/

theorem Heap.pushAll_ne_unfinished {h : Heap} {cs : List Cell} :
    h.pushAll cs ≠ .error .unfinished := by
  induction cs generalizing h with
  | nil => exact Halt.ok_ne_error
  | cons c cs ih =>
    refine Halt.ne_error_bind ?_ fun k _ => ih
    unfold Heap.push
    split <;> simp

theorem Keys.keyAt_ne_unfinished {h : Heap} {a : Nat}
    (ends : ∀ c, h.get? a = some c → ∃ x, h.deref c = .ok x) :
    keyAt h a ≠ .error .unfinished := by
  have reads (b : Nat) : h.read b ≠ .error .unfinished := by
    unfold Heap.read
    split <;> simp
  refine Halt.ne_error_bind (reads a) fun c found => ?_
  obtain ⟨x, ended⟩ := ends c (Heap.read_eq_ok.mp found)
  rw [ended, Halt.ok_bind, Key.ofCell]
  split
  · exact Halt.ne_error_bind (reads _) fun _ _ => Halt.ok_ne_error
  all_goals exact Halt.ok_ne_error

theorem Keys.ofRef_ne_unfinished {h : Heap} {ref : Cell} {positions : Nat}
    (ends : ∀ i c, h.get? (ref.addr + 1 + i) = some c → ∃ x, h.deref c = .ok x) :
    ofRef h ref positions ≠ .error .unfinished := by
  have entry (i n : Nat) :
      (if i < n then keyAt h (ref.addr + 1 + i) else return .any) ≠ .error .unfinished := by
    split
    · exact keyAt_ne_unfinished (ends i)
    · exact Halt.ok_ne_error
  unfold ofRef
  exact Halt.ne_error_bind (entry 0 _) fun _ _ => Halt.ne_error_bind (entry 1 _) fun _ _ =>
    Halt.ne_error_bind (entry 2 _) fun _ _ => Halt.ok_ne_error

namespace ClauseCode

/-- Wherever accepted code is placed, dereferencing one of its cells ends exactly if the
chain comes to no ring of variables. If no chain does, storing the code ends, though it
dereferences the elements of the head. -/
theorem deref_ends_iff {code : ClauseCode} (valid : code.validate = .ok ()) :
    (∀ (h k : Heap), h.pushRelocated h.top code.cells.toList = .ok k →
      ∀ a c, code.cells[a]? = some c →
        k.get? (h.top + a) = some (c.relocate h.top) ∧
        (code.RingFrom a → k.deref (c.relocate h.top) = .error .unfinished) ∧
        (¬ code.RingFrom a → ∃ x, k.deref (c.relocate h.top) = .ok x)) ∧
    ((∀ a, ¬ code.RingFrom a) → ∀ (h : Heap) (ref : Cell) (body : List Cell) (positions : Nat),
      code.goals = ref :: body →
      Clause.store h code ref body positions ≠ .error .unfinished) := by
  have accepted := validate_eq_ok.mp valid
  refine ⟨fun h k placed a c found => ?_, fun free h ref body positions goals => ?_⟩
  · have copied := copied_size.mpr (Heap.pushRelocated_eq_ok.mp placed)
    exact ⟨copied.get? found (lt_size_of_getElem? found), accepted.deref_cases copied found⟩
  · refine Halt.ne_error_bind Heap.pushAll_ne_unfinished fun k placed => ?_
    refine Halt.ne_error_bind (Keys.ofRef_ne_unfinished fun i c found => ?_) fun _ _ =>
      Halt.ok_ne_error
    have copied := copied_size.mpr (Heap.pushRelocated_eq_ok.mp placed)
    obtain ⟨tag, header⟩ := accepted.goal ref (goals ▸ List.mem_cons_self)
    obtain ⟨d, target, -⟩ := isHeaderAt_iff.mp header
    rw [copied.addr (Cell.isInternalRef_iff.mpr (.inr tag)) target (lt_size_of_getElem? target)]
      at found
    obtain ⟨e, -, source, rfl⟩ := copied.of_get? (by omega) found
    exact (accepted.deref_cases copied source).2 (free _)

/-- The fact `p(X, X, Y, Z)` where `X` is named before it is introduced, and `Y` and `Z`
refer to each other. -/
def ringed : ClauseCode :=
  ⟨#[.header 5, .constant 0, .varRef 3, .var 3, .varRef 5, .varRef 4], [.structRef 0], 6⟩

/-- A heap with one cell. -/
def single : Heap := ⟨#[.number 7], by decide⟩

theorem ringFrom_ringed : ringed.RingFrom 4 := by
  have there : ringed.Points 4 5 := ⟨.varRef 5, by decide +kernel⟩
  have back : ringed.Points 5 4 := ⟨.varRef 4, by decide +kernel⟩
  exact ⟨4, .refl, .head there (.single back)⟩

theorem deref_ends_iff_ringed :
    ringed.validate = .ok () ∧ ¬ ringed.RingFrom 2 ∧ ringed.RingFrom 4 ∧
    ∃ k, single.pushRelocated single.top ringed.cells.toList = .ok k ∧
      k.deref (.varRef 4) = .ok (.var 4) ∧ k.deref (.varRef 6) = .error .unfinished := by
  have valid : ringed.validate = .ok () := by decide +kernel
  have checks : (single.pushRelocated single.top ringed.cells.toList).toOption.any (fun k =>
      decide (k.deref (.varRef 4) = .ok (.var 4))) = true := by decide +kernel
  obtain ⟨k, placed, ended⟩ := exists_ok_of_any checks
  have ended := of_decide_eq_true ended
  have all := (deref_ends_iff valid).1 single k placed
  obtain ⟨-, endless, -⟩ := all 2 (.varRef 3) (by decide +kernel)
  obtain ⟨-, endless', -⟩ := all 4 (.varRef 5) (by decide +kernel)
  have forward : (Cell.varRef 3).relocate single.top = .varRef 4 := by decide +kernel
  have around : (Cell.varRef 5).relocate single.top = .varRef 6 := by decide +kernel
  rw [forward] at endless
  rw [around] at endless'
  refine ⟨valid, fun ring => ?_, ringFrom_ringed, k, placed, ended, endless' ringFrom_ringed⟩
  rw [endless ring] at ended
  cases ended

/-- The fact `p(Y, Z)` where `Y` and `Z` refer to each other. -/
def knotted : ClauseCode :=
  ⟨#[.header 3, .constant 0, .var 3, .var 2], [.structRef 0], 4⟩

/-- Code is accepted although one of its chains has no end, and storing it has none. -/
theorem deref_endless_knotted :
    knotted.validate = .ok () ∧
    (∃ k, Heap.empty.pushRelocated Heap.empty.top knotted.cells.toList = .ok k ∧
      k.get? 2 = some (.var 3) ∧ k.deref (.var 3) = .error .unfinished ∧
      ∀ x, ¬ k.Leads (.var 3) x) ∧
    Clause.store .empty knotted (.structRef 0) [] 3 = .error .unfinished := by
  have valid : knotted.validate = .ok () := by decide +kernel
  have checks : (Heap.empty.pushRelocated Heap.empty.top knotted.cells.toList).toOption.any
      (fun k => decide (k.get? 2 = some (.var 3) ∧ k.deref (.var 3) = .error .unfinished)) =
        true := by
    decide +kernel
  obtain ⟨k, placed, checks⟩ := exists_ok_of_any checks
  obtain ⟨there, endless⟩ := of_decide_eq_true checks
  have never (x : Cell) : ¬ k.Leads (.var 3) x := by
    intro leads
    rw [Heap.deref_eq_ok.mpr leads] at endless
    cases endless
  have halts : (Clause.store .empty knotted (.structRef 0) [] 3).map (fun _ => ()) =
      .error .unfinished := by decide +kernel
  exact ⟨valid, ⟨k, placed, there, endless, never⟩, Halt.eq_error_of_map halts⟩

end ClauseCode

end HornMachine
