import HornMachine.Proofs.UnificationTurn

/-!
# Unification is symmetric

Nothing that unification leaves depends on which of the two terms comes first. Both
ends of the chains are found before anything is bound, and of two unbound variables
the younger is bound, on whichever side it stands. The elements of two structures are
queued in the same order, so the turns of the one run are those of the other with the
sides of every pair exchanged, up to the last pair or the clash.
-/
namespace HornMachine.Store

/-- The pairs with their sides exchanged. -/
def exchange (work : List (Cell × Cell)) : List (Cell × Cell) := work.map Prod.swap

variable {s : Store} {work : List (Cell × Cell)} {a b : Cell} {boundary : Nat}

/-- Queueing reads both structures at each position, in either order. -/
theorem pushElements_exchange (h : Heap) (a b n : Nat) (work : List (Cell × Cell)) :
    pushElements h b a n (exchange work) = exchange <$> pushElements h a b n work := by
  induction n generalizing work with
  | zero => rfl
  | succ n ih =>
    simp only [pushElements, Heap.read]
    cases h.cells[a + (n + 1)]? with
    | none => cases h.cells[b + (n + 1)]? <;> rfl
    | some u =>
      cases h.cells[b + (n + 1)]? with
      | none => rfl
      | some v =>
        simp only [Halt.ok_bind]
        rw [← ih]
        congr 1
        by_cases same : u = v
        · rw [if_pos same, if_pos same.symm]
        · rw [if_neg same, if_neg (Ne.symm same)]
          rfl

theorem pushStructures_exchange (h : Heap) (a b : Nat) (work : List (Cell × Cell)) :
    pushStructures h b a (exchange work) =
      (Option.map exchange) <$> pushStructures h a b work := by
  simp only [pushStructures, Heap.read]
  cases h.cells[a]? with
  | none => cases h.cells[b]? <;> rfl
  | some c =>
    cases h.cells[b]? with
    | none => rfl
    | some d =>
      simp only [Halt.ok_bind]
      by_cases same : c = d
      · subst same
        rw [if_pos rfl, if_pos rfl, pushElements_exchange]
        cases pushElements h a b c.addr work <;> rfl
      · rw [if_neg same, if_neg (Ne.symm same)]
        rfl

/-- A turn with the sides of its pair exchanged leaves the same store, and the pairs
that are left with their sides exchanged. -/
theorem unifyTurn_exchange {o : Option (List (Cell × Cell) × Store)}
    (turned : unifyTurn boundary a b work s = .ok o) :
    unifyTurn boundary b a (exchange work) s = .ok (o.map fun (left, t) => (exchange left, t)) := by
  obtain ⟨x, y, ax, bY⟩ := leads_of_unifyTurn turned
  cases ends_cases x y with
  | same equal =>
    subst equal
    rw [unifyTurn_same ax bY] at turned
    cases turned
    exact unifyTurn_same bY ax
  | binds other sides isVar older =>
    rw [unifyTurn_binds ax bY other sides isVar older] at turned
    obtain ⟨t, bound, left⟩ := Halt.bind_eq_ok.mp turned
    cases left
    rw [unifyTurn_binds bY ax other.symm sides.symm isVar older, bound]
    rfl
  | structures other tagX tagY =>
    rw [unifyTurn_structures ax bY other tagX tagY] at turned
    obtain ⟨queued, pushed, left⟩ := Halt.bind_eq_ok.mp turned
    cases left
    rw [unifyTurn_structures bY ax other.symm tagY tagX, pushStructures_exchange, pushed]
    cases queued <;> rfl
  | clash other xValue yValue clash =>
    rw [unifyTurn_clash ax bY other xValue yValue clash] at turned
    cases turned
    exact unifyTurn_clash bY ax other.symm yValue xValue (mt And.symm clash)

/-- A run that returns, returns the same with the sides of every pair exchanged. -/
theorem unifyAll_exchange {fuel : Nat} {r : Bool × Store}
    (returned : unifyAll boundary fuel work s = .ok r) :
    unifyAll boundary fuel (exchange work) s = .ok r := by
  induction fuel generalizing work s with
  | zero =>
    cases work with
    | nil => exact returned
    | cons pair work => cases returned
  | succ fuel ih =>
    cases work with
    | nil => exact returned
    | cons pair work =>
      obtain ⟨a, b⟩ := pair
      rw [unifyAll_cons, Halt.bind_eq_ok] at returned
      obtain ⟨o, turned, rest⟩ := returned
      change unifyAll boundary (fuel + 1) ((b, a) :: exchange work) s = .ok r
      rw [unifyAll_cons, unifyTurn_exchange turned, Halt.ok_bind]
      cases o with
      | none => exact rest
      | some left => exact ih rest

/-- Unifying two terms returns exactly if unifying them in the other order does, in as
many turns, and then with the same answer, the same heap and the same trail. -/
theorem unify_comm (s : Store) (fuel boundary : Nat) (goal head : Cell) (r : Bool × Store) :
    s.unify fuel boundary goal head = .ok r ↔ s.unify fuel boundary head goal = .ok r :=
  ⟨unifyAll_exchange, unifyAll_exchange⟩

end HornMachine.Store
