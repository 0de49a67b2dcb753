import HornMachine.Proofs.Branches

/-!
# Asking again and again

Between two answers a machine holds the store of its top choice point, so it is
determined by its branches. Asking explores the branches to the next answer,
reads that answer out of the store that holds its bindings, and drops this store.
-/
namespace HornMachine

/-- Ask `count` times, whatever is answered. -/
def Machine.asks (m : Machine) (fuel : Nat) : Nat → Except Halt (List (Option Term) × Machine)
  | 0 => .ok ([], m)
  | count + 1 => do
    let (t, m) ← m.ask fuel
    let (ts, m) ← m.asks fuel count
    return (t :: ts, m)

/-! What a machine does, it does with more fuel. -/

theorem Machine.step_mono {m : Machine} {fuel more : Nat} {x : Option Answer × Machine}
    (le : fuel ≤ more) (e : m.step fuel = .ok x) : m.step more = .ok x := by
  obtain ⟨found, searched, e⟩ := Halt.bind_eq_ok.mp e
  exact Halt.bind_eq_ok.mpr ⟨found, Program.search_mono le searched, e⟩

theorem Machine.step_unique {m : Machine} {fuel fuel' : Nat} {x y : Option Answer × Machine}
    (e : m.step fuel = .ok x) (e' : m.step fuel' = .ok y) : x = y :=
  Halt.unique_of_mono (f := m.step) step_mono e e'

theorem Machine.ask_mono {m : Machine} {fuel more : Nat} {x : Option Term × Machine}
    (le : fuel ≤ more) (e : m.ask fuel = .ok x) : m.ask more = .ok x := by
  obtain ⟨found, stepped, e⟩ := Halt.bind_eq_ok.mp e
  exact Halt.bind_eq_ok.mpr ⟨found, step_mono le stepped, e⟩

theorem Machine.asks_mono {m : Machine} {fuel more count : Nat}
    {x : List (Option Term) × Machine} (le : fuel ≤ more) (e : m.asks fuel count = .ok x) :
    m.asks more count = .ok x := by
  induction count generalizing m x with
  | zero => exact e
  | succ count ih =>
    obtain ⟨⟨t, n⟩, asked, e⟩ := Halt.bind_eq_ok.mp e
    obtain ⟨⟨ts, k⟩, later, e⟩ := Halt.bind_eq_ok.mp e
    exact Halt.bind_eq_ok.mpr ⟨_, ask_mono le asked, Halt.bind_eq_ok.mpr ⟨_, ih later, e⟩⟩

theorem Machine.asks_unique {m : Machine} {fuel fuel' count : Nat}
    {x y : List (Option Term) × Machine} (e : m.asks fuel count = .ok x)
    (e' : m.asks fuel' count = .ok y) : x = y :=
  Halt.unique_of_mono (f := (m.asks · count)) asks_mono e e'

namespace Program

/-- The machine between two answers. -/
def resting (p : Program) (queryHead : Cell) (floor : Store) (bs : List Branch) : Machine :=
  ⟨p, current floor bs, bs.map (·.point), queryHead⟩

/-- How the outcome of an exploration is reported. -/
def Told (p : Program) : Option (Answer × Store) → Option Term → Prop
  | none, t => t = none
  | some (a, u), t => ∃ x, u.heap.readout p.symbols a.head = .ok x ∧ t = some x

/-- Repeated explorations with what they report. -/
inductive Asked (p : Program) (queryHead : Cell) (floor : Store) :
    List Branch → List (Option Term) → List Branch → Prop
  | nil {bs : List Branch} : Asked p queryHead floor bs [] bs
  | cons {bs mid bs' : List Branch} {o : Option (Answer × Store)} {t : Option Term}
      {ts : List (Option Term)} : p.Explored queryHead floor bs o mid → p.Told o t →
      Asked p queryHead floor mid ts bs' → Asked p queryHead floor bs (t :: ts) bs'

variable {p : Program} {queryHead : Cell} {floor : Store} {bs bs' : List Branch}
  {o : Option (Answer × Store)} {t : Option Term} {ts : List (Option Term)} {m : Machine}

theorem step_resting {fuel : Nat} {a : Option Answer} (placed : p.Placed)
    (stacked : p.Stacked floor bs)
    (e : (p.resting queryHead floor bs).step fuel = .ok (a, m)) :
    ∃ o bs', p.Explored queryHead floor bs o bs' ∧ a = o.map (·.1) ∧
      m = ⟨p, (o.map (·.2)).getD (current floor bs'), bs'.map (·.point), queryHead⟩ := by
  obtain ⟨⟨a', stack, u⟩, searched, e⟩ := Halt.bind_eq_ok.mp e
  cases e
  obtain ⟨o, bs', explored, rfl, rfl, rfl⟩ := Explored.of_search placed stacked searched
  exact ⟨o, bs', explored, rfl, rfl⟩

theorem Explored.retract {a : Answer} {u : Store} (placed : p.Placed)
    (stacked : p.Stacked floor bs) (e : p.Explored queryHead floor bs (some (a, u)) bs') :
    (⟨p, u, bs'.map (·.point), queryHead⟩ : Machine).retract a =
      .ok (p.resting queryHead floor bs') := by
  obtain ⟨mark, base, grown⟩ := (e.stacked placed stacked).2 a u rfl
  refine Halt.bind_eq_ok.mpr ⟨current floor bs', ?_, rfl⟩
  rw [mark, base]
  exact grown.restore

theorem ask_resting {fuel : Nat} (placed : p.Placed) (stacked : p.Stacked floor bs)
    (e : (p.resting queryHead floor bs).ask fuel = .ok (t, m)) :
    ∃ o bs', p.Explored queryHead floor bs o bs' ∧ p.Told o t ∧
      (p.resting queryHead floor bs).step fuel = .ok (o.map (·.1),
        ⟨p, (o.map (·.2)).getD (current floor bs'), bs'.map (·.point), queryHead⟩) ∧
      m = p.resting queryHead floor bs' := by
  obtain ⟨⟨a, n⟩, stepped, e⟩ := Halt.bind_eq_ok.mp e
  obtain ⟨o, bs', explored, rfl, rfl⟩ := step_resting placed stacked stepped
  refine ⟨o, bs', explored, ?_⟩
  obtain _ | ⟨a, u⟩ := o
  · cases e
    exact ⟨rfl, stepped, rfl⟩
  · obtain ⟨x, read, e⟩ := Halt.bind_eq_ok.mp e
    obtain ⟨n, retracted, e⟩ := Halt.bind_eq_ok.mp e
    cases e
    have back := explored.retract placed stacked
    exact ⟨⟨x, read, rfl⟩, stepped, Except.ok.inj (retracted.symm.trans back)⟩

theorem Explored.ask (placed : p.Placed) (stacked : p.Stacked floor bs)
    (e : p.Explored queryHead floor bs o bs') (told : p.Told o t) :
    ∃ fuel, ∀ more, fuel ≤ more →
      (p.resting queryHead floor bs).ask more = .ok (t, p.resting queryHead floor bs') := by
  obtain ⟨fuel, enough⟩ := e.search placed stacked
  refine ⟨fuel, fun more le => ?_⟩
  have stepped : (p.resting queryHead floor bs).step more = .ok (o.map (·.1),
      ⟨p, (o.map (·.2)).getD (current floor bs'), bs'.map (·.point), queryHead⟩) :=
    Halt.bind_eq_ok.mpr ⟨_, enough more le, rfl⟩
  refine Halt.bind_eq_ok.mpr ⟨_, stepped, ?_⟩
  obtain _ | ⟨a, u⟩ := o
  · cases told
    rfl
  · obtain ⟨x, read, rfl⟩ := told
    exact Halt.bind_eq_ok.mpr ⟨x, read, Halt.bind_eq_ok.mpr ⟨_, e.retract placed stacked, rfl⟩⟩

theorem Asked.of_asks {fuel count : Nat} (placed : p.Placed) (stacked : p.Stacked floor bs)
    (e : (p.resting queryHead floor bs).asks fuel count = .ok (ts, m)) :
    ∃ bs', p.Asked queryHead floor bs ts bs' ∧ ts.length = count ∧
      m = p.resting queryHead floor bs' := by
  induction count generalizing bs ts with
  | zero =>
    cases e
    exact ⟨bs, .nil, rfl, rfl⟩
  | succ count ih =>
    obtain ⟨⟨t, n⟩, asked, e⟩ := Halt.bind_eq_ok.mp e
    obtain ⟨⟨ts, n'⟩, rest, e⟩ := Halt.bind_eq_ok.mp e
    cases e
    obtain ⟨o, mid, explored, told, -, rfl⟩ := ask_resting placed stacked asked
    obtain ⟨bs', later, length, same⟩ := ih (explored.stacked placed stacked).1 rest
    exact ⟨bs', .cons explored told later, by rw [List.length_cons, length], same⟩

theorem Asked.asks (placed : p.Placed) (stacked : p.Stacked floor bs)
    (e : p.Asked queryHead floor bs ts bs') :
    ∃ fuel, ∀ more, fuel ≤ more →
      (p.resting queryHead floor bs).asks more ts.length =
        .ok (ts, p.resting queryHead floor bs') := by
  induction e with
  | nil => exact ⟨0, fun _ _ => rfl⟩
  | cons explored told _ ih =>
    obtain ⟨first, once⟩ := explored.ask placed stacked told
    obtain ⟨others, again⟩ := ih (explored.stacked placed stacked).1
    refine ⟨max first others, fun more le => ?_⟩
    refine Halt.bind_eq_ok.mpr ⟨_, once more (by omega), ?_⟩
    exact Halt.bind_eq_ok.mpr ⟨_, again more (by omega), rfl⟩

theorem Asked.forall_branches {I : Branch → Prop}
    (turn : ∀ {b : Branch} {r : Resolution} {left : ChoicePoint} {u : Store}, I b →
      b.point.hasGoals = true → p.Unfolds queryHead b r left u →
      I ⟨left, b.store⟩ ∧ ∀ next, r = .advanced next → I ⟨next, u⟩)
    (start : ∀ b ∈ bs, I b) (e : p.Asked queryHead floor bs ts bs') : ∀ b ∈ bs', I b := by
  induction e with
  | nil => exact start
  | cons explored _ _ ih => exact ih (explored.forall_branches turn start)

theorem Asked.stacked (placed : p.Placed) (stacked : p.Stacked floor bs)
    (e : p.Asked queryHead floor bs ts bs') : p.Stacked floor bs' := by
  induction e with
  | nil => exact stacked
  | cons explored _ _ ih => exact ih (explored.stacked placed stacked).1

end Program

end HornMachine
