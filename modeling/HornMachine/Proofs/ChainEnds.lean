import HornMachine.Proofs.Chains
import Mathlib.Data.Fintype.Pigeonhole
import Mathlib.Logic.Relation

/-!
# Chains without an end

On a heap of any content a chain of variables ends, or it comes to a variable that refers
to no cell, or it comes to a ring. Dereferencing tells the three apart: it returns, reads
outside the heap, or does not end. After more steps than there are cells some address has
been visited twice, so giving up there is only ever done in a ring.
-/
namespace HornMachine.Heap

variable {h : Heap} {c d x : Cell} {n : Nat}

/-- Dereferencing goes on from the first cell to the second. -/
def Follows (h : Heap) (c d : Cell) : Prop :=
  c.isVar = true ∧ h.get? c.addr = some d ∧ d ≠ c

/-- The chain comes to a variable that refers to no cell. -/
def Strays (h : Heap) (c : Cell) : Prop :=
  ∃ x, Relation.ReflTransGen h.Follows c x ∧ x.isVar = true ∧ h.get? x.addr = none

/-- The chain comes to a cell that it comes to again. -/
def Rings (h : Heap) (c : Cell) : Prop :=
  ∃ x, Relation.ReflTransGen h.Follows c x ∧ Relation.TransGen h.Follows x x

theorem Follows.eq {e : Cell} (first : h.Follows c d) (second : h.Follows c e) : d = e :=
  Option.some.inj (first.2.1.symm.trans second.2.1)

theorem Follows.strays (follows : h.Follows c d) (strays : h.Strays d) : h.Strays c := by
  obtain ⟨x, path, outside⟩ := strays
  exact ⟨x, .head follows path, outside⟩

theorem exists_follows_of_rings (rings : h.Rings c) : ∃ d, h.Follows c d ∧ h.Rings d := by
  obtain ⟨x, path, around⟩ := rings
  rcases path.cases_head with rfl | ⟨d, follows, later⟩
  · obtain ⟨d, follows, back⟩ := Relation.TransGen.head'_iff.mp around
    exact ⟨d, follows, c, back, around⟩
  · exact ⟨d, follows, x, later, around⟩

/-! ### The three ways of a chain exclude each other -/

theorem Leads.not_rings (leads : h.Leads c x) : ¬ h.Rings c := by
  intro rings
  induction leads with
  | value notVar =>
    obtain ⟨d, ⟨isVar, -⟩, -⟩ := exists_follows_of_rings rings
    rw [notVar] at isVar
    cases isVar
  | root _ found =>
    obtain ⟨d, ⟨-, found', other⟩, -⟩ := exists_follows_of_rings rings
    exact other (Option.some.inj (found'.symm.trans found))
  | step _ found _ _ ih =>
    obtain ⟨d, ⟨-, found', -⟩, later⟩ := exists_follows_of_rings rings
    obtain rfl := Option.some.inj (found.symm.trans found')
    exact ih later

theorem Strays.not_rings (strays : h.Strays c) : ¬ h.Rings c := by
  obtain ⟨x, path, -, outside⟩ := strays
  induction path using Relation.ReflTransGen.head_induction_on with
  | refl =>
    intro rings
    obtain ⟨d, ⟨-, found, -⟩, -⟩ := exists_follows_of_rings rings
    rw [outside] at found
    cases found
  | head follows _ ih =>
    intro rings
    obtain ⟨d, follows', later⟩ := exists_follows_of_rings rings
    exact ih (follows.eq follows' ▸ later)

theorem Strays.not_leads (strays : h.Strays c) : ¬ h.Leads c x := by
  obtain ⟨y, path, isVar, outside⟩ := strays
  induction path using Relation.ReflTransGen.head_induction_on with
  | refl =>
    intro leads
    cases leads with
    | value notVar =>
      rw [isVar] at notVar
      cases notVar
    | root _ found =>
      rw [outside] at found
      cases found
    | step _ found _ _ =>
      rw [outside] at found
      cases found
  | head follows _ ih =>
    obtain ⟨isVar, found, other⟩ := follows
    intro leads
    cases leads with
    | value notVar =>
      rw [isVar] at notVar
      cases notVar
    | root _ found' => exact other (Option.some.inj (found.symm.trans found'))
    | step _ found' _ rest => exact ih (Option.some.inj (found.symm.trans found') ▸ rest)

/-! ### What dereferencing finds -/

theorem chain_cases (h : Heap) (c : Cell) :
    (c.isVar = false ∨ h.get? c.addr = some c) ∨ (c.isVar = true ∧ h.get? c.addr = none) ∨
      ∃ d, h.Follows c d := by
  cases isVar : c.isVar with
  | false => exact .inl (.inl rfl)
  | true =>
    cases found : h.get? c.addr with
    | none => exact .inr (.inl ⟨rfl, rfl⟩)
    | some d =>
      by_cases same : d = c
      · exact .inl (.inr (congrArg some same))
      · exact .inr (.inr ⟨d, isVar, found, same⟩)

theorem derefWithin_of_outside (isVar : c.isVar = true) (outside : h.get? c.addr = none)
    (n : Nat) : h.derefWithin n c = .error .outOfRange := by
  have failed : h.target c = .error .outOfRange := by
    unfold target read
    rw [show h.cells[c.addr]? = none from outside]
  unfold derefWithin
  rw [if_pos isVar, failed]
  rfl

theorem Follows.derefWithin (follows : h.Follows c d) (n : Nat) :
    h.derefWithin n c = match n with
      | 0 => .error .unfinished
      | n + 1 => h.derefWithin n d := by
  obtain ⟨isVar, found, other⟩ := follows
  cases n <;>
    rw [Heap.derefWithin, if_pos isVar, target_eq_ok.mpr found, Halt.ok_bind, if_neg other]

/-- What the cell refers to. -/
def next (h : Heap) (c : Cell) : Cell := (h.get? c.addr).getD c

theorem Follows.next_eq (follows : h.Follows c d) : h.next c = d := by
  rw [Heap.next, follows.2.1]
  rfl

theorem Follows.next (follows : h.Follows c d) : h.Follows c (h.next c) :=
  follows.next_eq.symm ▸ follows

/-- Dereferencing fails at a chain that leaves the heap, or gives up after `n` steps. -/
theorem derefWithin_eq_error {e : Halt} (failed : h.derefWithin n c = .error e) :
    (h.Strays c ∧ e = .outOfRange) ∨
      (∀ i ≤ n, h.Follows (h.next^[i] c) (h.next^[i + 1] c)) ∧ e = .unfinished := by
  induction n generalizing c with
  | zero =>
    rcases h.chain_cases c with ended | ⟨isVar, outside⟩ | ⟨d, follows⟩
    · rw [derefWithin_of_end ended] at failed
      cases failed
    · rw [derefWithin_of_outside isVar outside] at failed
      cases failed
      exact .inl ⟨⟨c, .refl, isVar, outside⟩, rfl⟩
    · rw [follows.derefWithin] at failed
      cases failed
      refine .inr ⟨fun i short => ?_, rfl⟩
      obtain rfl := Nat.le_zero.mp short
      exact follows.next
  | succ n ih =>
    rcases h.chain_cases c with ended | ⟨isVar, outside⟩ | ⟨d, follows⟩
    · rw [derefWithin_of_end ended] at failed
      cases failed
    · rw [derefWithin_of_outside isVar outside] at failed
      cases failed
      exact .inl ⟨⟨c, .refl, isVar, outside⟩, rfl⟩
    · rw [follows.derefWithin] at failed
      rcases ih failed with ⟨strays, rfl⟩ | ⟨walk, rfl⟩
      · exact .inl ⟨follows.strays strays, rfl⟩
      · refine .inr ⟨fun i short => ?_, rfl⟩
        cases i with
        | zero => exact follows.next
        | succ i =>
          rw [Function.iterate_succ_apply, Function.iterate_succ_apply, follows.next_eq]
          exact walk i (Nat.le_of_succ_le_succ short)

/-- A chain that is followed for more steps than there are cells comes to a ring. -/
theorem rings_of_walk (walk : ∀ i ≤ h.top, h.Follows (h.next^[i] c) (h.next^[i + 1] c)) :
    h.Rings c := by
  have path {i m : Nat} (short : i + m ≤ h.top + 1) :
      Relation.ReflTransGen h.Follows (h.next^[i] c) (h.next^[i + m] c) := by
    induction m with
    | zero => exact .refl
    | succ m ih => exact (ih (by omega)).tail (walk (i + m) (by omega))
  let address (i : Fin (h.top + 1)) : Fin h.top :=
    ⟨(h.next^[i.1] c).addr, lt_top_of_get? (walk i.1 (by omega)).2.1⟩
  obtain ⟨i, j, before, same⟩ : ∃ i j, i < j ∧ address i = address j := by
    obtain ⟨i, j, other, same⟩ := Fintype.exists_ne_map_eq_of_card_lt address (by simp)
    rcases lt_or_gt_of_ne other with before | after
    · exact ⟨i, j, before, same⟩
    · exact ⟨j, i, after, same.symm⟩
  have back : h.next^[i.1 + 1] c = h.next^[j.1 + 1] c := by
    have first := (walk i.1 (by omega)).2.1
    have second := (walk j.1 (by omega)).2.1
    have addr : (h.next^[i.1] c).addr = (h.next^[j.1] c).addr := congrArg Fin.val same
    rw [addr] at first
    exact Option.some.inj (first.symm.trans second)
  have before : i.1 < j.1 := before
  refine ⟨h.next^[i.1 + 1] c, ?_, ?_⟩
  · have start := path (i := 0) (m := i.1 + 1) (by omega)
    rwa [Nat.zero_add] at start
  · have around := path (i := i.1 + 1) (m := j.1 - (i.1 + 1)) (by omega)
    rw [show i.1 + 1 + (j.1 - (i.1 + 1)) = j.1 by omega] at around
    have last := walk j.1 (by omega)
    rw [← back] at last
    exact Relation.TransGen.tail' around last

theorem deref_eq_outOfRange : h.deref c = .error .outOfRange ↔ h.Strays c := by
  constructor
  · intro failed
    rcases derefWithin_eq_error failed with ⟨strays, -⟩ | ⟨-, other⟩
    · exact strays
    · cases other
  · intro strays
    cases result : h.deref c with
    | ok x => exact absurd (.of_deref result) strays.not_leads
    | error e =>
      rcases derefWithin_eq_error result with ⟨-, rfl⟩ | ⟨walk, -⟩
      · rfl
      · exact absurd (rings_of_walk fun i short => walk i (by omega)) strays.not_rings

theorem deref_eq_unfinished : h.deref c = .error .unfinished ↔ h.Rings c := by
  constructor
  · intro failed
    rcases derefWithin_eq_error failed with ⟨-, other⟩ | ⟨walk, -⟩
    · cases other
    · exact rings_of_walk fun i short => walk i (by omega)
  · intro rings
    cases result : h.deref c with
    | ok x => exact absurd rings (Leads.of_deref result).not_rings
    | error e =>
      rcases derefWithin_eq_error result with ⟨strays, -⟩ | ⟨-, rfl⟩
      · exact absurd rings strays.not_rings
      · rfl

theorem deref_cases (h : Heap) (c : Cell) :
    (∃ x, h.Leads c x ∧ h.deref c = .ok x) ∨
      (h.Strays c ∧ h.deref c = .error .outOfRange) ∨
      h.Rings c ∧ h.deref c = .error .unfinished := by
  cases result : h.deref c with
  | ok x => exact .inl ⟨x, .of_deref result, rfl⟩
  | error e =>
    rcases derefWithin_eq_error result with ⟨strays, rfl⟩ | ⟨-, rfl⟩
    · exact .inr (.inl ⟨strays, rfl⟩)
    · exact .inr (.inr ⟨deref_eq_unfinished.mp result, rfl⟩)

end HornMachine.Heap
