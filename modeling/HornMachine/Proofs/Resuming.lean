import HornMachine.Proofs.IndexIndependence
import HornMachine.Proofs.Watermarks

/-!
# Stepping without undoing

Between two steps the bindings of the answer and the clause copy that completed it
stay in the store. The next step goes on with the candidates that are left to the
latest choice point, and tries them under these bindings; only when none of them is
used does it go back to where that choice point was made. So stepping and asking
answer alike as long as nothing is left to use on top of the stack when an answer was
found, and not beyond that.
-/
namespace HornMachine

namespace Machine

/-- Step once and read the answer out of the store that is left. -/
def peek (m : Machine) (fuel : Nat) : Except Halt (Option Term × Machine) := do
  match ← m.step fuel with
  | (none, m) => return (none, m)
  | (some a, m) => return (some (← m.readout a.head), m)

/-- Step `count` times with nothing in between, whatever is answered. -/
def steps (m : Machine) (fuel : Nat) : Nat → Except Halt (List (Option Term) × Machine)
  | 0 => .ok ([], m)
  | count + 1 => do
    let (t, m) ← m.peek fuel
    let (ts, m) ← m.steps fuel count
    return (t :: ts, m)

/-- In the store as it is, no candidate that is left to the latest choice point is of
use. -/
def Settled (m : Machine) : Prop :=
  ∀ q ∈ m.stack.head?, m.program.Spent m.queryHead ⟨q, m.store⟩

end Machine

namespace Program

/-- A choice point whose keys are known, made on `below`, in a store that may hold more
than its own bindings. -/
structure Resumed (p : Program) (below : Store) (q : ChoicePoint) (u : Store) : Prop where
  base : q.base = below.heap.top
  mark : q.trailMark = below.trail.mark
  extends' : below.Extends u
  rooted : u.heap.Rooted
  static : p.staticTop ≤ u.heap.top
  within : q.cursor ≤ q.candidates.size
  keyed : ∃ keys, q.keys = some keys
  goals : q.hasGoals = true

variable {p : Program} {queryHead : Cell} {floor below u w : Store} {q left : ChoicePoint}
  {b : Branch} {bs bs' mid : List Branch} {o : Option (Answer × Store)} {a : Answer}
  {stack : List ChoicePoint} {fuel count : Nat} {r : Resolution} {ts : List (Option Term)}

theorem Resumed.restore (resumed : p.Resumed below q u) :
    u.restore q.trailMark q.base = .ok below := by
  rw [resumed.mark, resumed.base]
  exact resumed.extends'.restore

/-- With its keys known, a choice point goes on scanning where it stopped. -/
theorem Resumed.unfold_eq (resumed : p.Resumed below q u) (queryHead : Cell) :
    ∃ goal rest keys, ∀ fuel, p.unfold fuel queryHead q u =
      p.scan fuel queryHead goal rest keys q.pending u >>= fun
        | (r, ids, v) => .ok (r, q.leaving ids, v) := by
  obtain ⟨goal, rest, goals⟩ := exists_goal (b := ⟨q, u⟩) resumed.goals
  obtain ⟨keys, known⟩ := resumed.keyed
  refine ⟨goal, rest, keys, fun fuel => ?_⟩
  have goals : q.goals = goal :: rest := goals
  have prepared : p.prepare u.heap goal q = .ok (keys, q) := by rw [prepare, known]
  unfold unfold
  rw [goals]
  dsimp only
  rw [prepared, Halt.ok_bind]
  exact tryCandidates_eq_scan resumed.within u

theorem Resumed.exhausted (placed : p.Placed) (resumed : p.Resumed below q u)
    (e : p.unfold fuel queryHead q u = .ok (.exhausted, left, w)) :
    w = u ∧ left.trailMark = q.trailMark ∧ left.base = q.base := by
  obtain ⟨goal, rest, keys, scans⟩ := resumed.unfold_eq queryHead
  rw [scans] at e
  obtain ⟨⟨r, ids, v⟩, scanned, e⟩ := Halt.bind_eq_ok.mp e
  cases e
  have ended := Scanned.of_scan placed resumed.static resumed.rooted scanned
  generalize same : Resolution.exhausted = r at ended
  cases ended with
  | exhausted _ => exact ⟨rfl, rfl, rfl⟩
  | used _ _ _ _ _ => exact (resolution_ne_exhausted _ _ _ _ _ same.symm).elim

theorem Resumed.follow_exhausted {more : Nat} (placed : p.Placed) (resumed : p.Resumed below q u)
    (e : p.unfold fuel queryHead q u = .ok (.exhausted, left, w)) :
    p.follow queryHead more stack (.exhausted, left, w) = p.search queryHead more stack below := by
  obtain ⟨rfl, mark, base⟩ := resumed.exhausted placed e
  rw [follow, mark, base, resumed.restore, Halt.ok_bind]

/-- A search passes a choice point without a candidate of use, and goes on below it. -/
theorem Resumed.search_eq (placed : p.Placed) (resumed : p.Resumed below q u)
    (spent : p.Spent queryHead ⟨q, u⟩) :
    ∃ work, ∀ more stack, work ≤ more →
      p.search queryHead (more + 1) (q :: stack) u = p.search queryHead more stack below := by
  cases clauses : q.hasClauses with
  | false =>
    exact ⟨0, fun more stack _ => search_untried resumed.goals clauses resumed.restore⟩
  | true =>
    obtain none | ⟨left, w, work, unfolded⟩ := spent
    · exact absurd clauses (by simp [none])
    refine ⟨work, fun more stack le => ?_⟩
    rw [search_turn resumed.goals clauses, unfold_mono le unfolded, Halt.ok_bind,
      resumed.follow_exhausted placed unfolded]

theorem Resumed.of_search {x : Option Answer × List ChoicePoint × Store} (placed : p.Placed)
    (resumed : p.Resumed below q u) (spent : p.Spent queryHead ⟨q, u⟩)
    (e : p.search queryHead fuel (q :: stack) u = .ok x) :
    ∃ less, p.search queryHead less stack below = .ok x := by
  cases fuel with
  | zero => cases e
  | succ fuel =>
    refine ⟨fuel, ?_⟩
    cases clauses : q.hasClauses with
    | false => rwa [search_untried resumed.goals clauses resumed.restore] at e
    | true =>
      obtain none | ⟨left, w, work, unfolded⟩ := spent
      · exact absurd clauses (by simp [none])
      rw [search_turn resumed.goals clauses] at e
      obtain ⟨turned, scanned, e⟩ := Halt.bind_eq_ok.mp e
      obtain rfl := unfold_unique scanned unfolded
      rwa [resumed.follow_exhausted placed unfolded] at e

/-! ### Between two steps -/

/-- The stores a machine on the stack of `bs` may rest in between two steps: the one in
force there, or one that holds an answer after which nothing on top is of use. -/
inductive Poised (p : Program) (queryHead : Cell) (floor : Store) : List Branch → Store → Prop
  | rested {bs : List Branch} : Poised p queryHead floor bs (current floor bs)
  | bound {b : Branch} {bs : List Branch} {u : Store} :
      p.Resumed (current floor bs) b.point u → p.Spent queryHead ⟨b.point, u⟩ →
      p.Spent queryHead b → Poised p queryHead floor (b :: bs) u

/-- An answer is found on the branch that stays on top, or on a branch without goals. -/
theorem Explored.resumed (placed : p.Placed) (stacked : p.Stacked floor bs)
    (e : p.Explored queryHead floor bs o bs') (found : o = some (a, w)) :
    w = current floor bs' ∨
      ∃ b rest, bs' = b :: rest ∧ p.Resumed (current floor rest) b.point w := by
  induction e with
  | finished => cases found
  | barren _ =>
    cases found
    exact .inl rfl
  | dropped _ _ _ ih => exact ih stacked.2 found
  | descended goals _ turn _ ih => exact ih (stacked.descend placed goals turn) found
  | @answered b bs a' left u goals clauses turn =>
    cases found
    refine .inr ⟨_, _, rfl, ?_⟩
    obtain ⟨grown, rooted⟩ := turn.extends placed stacked.1 goals
    have under := stacked.1.leaving placed goals turn
    obtain ⟨goal, rest, keys, ids, -, -, -, rfl⟩ := turn.scanned placed stacked.1 goals
    exact ⟨under.base, under.mark, stacked.1.extends'.trans grown, rooted,
      under.static.trans grown.top_le, under.aligned.within, ⟨keys, rfl⟩, goals⟩

theorem Explored.poised (placed : p.Placed) (stacked : p.Stacked floor bs)
    (e : p.Explored queryHead floor bs (some (a, w)) bs')
    (left : (⟨p, w, bs'.map (·.point), queryHead⟩ : Machine).Settled)
    (undone : (p.resting queryHead floor bs').Settled) : p.Poised queryHead floor bs' w := by
  obtain rfl | ⟨b, rest, rfl, resumed⟩ := e.resumed placed stacked rfl
  · exact .rested
  · exact .bound resumed (left _ rfl) (undone _ rfl)

theorem Unfolds.not_exhausted (atop : p.Over below b) (some : b.point.hasGoals = true)
    (e : p.Unfolds queryHead b r left u) (on : r ≠ .exhausted) (placed : p.Placed) :
    ¬ p.Spent queryHead b := by
  intro spent
  obtain ⟨goal, rest, keys, before, id, ids, c, used⟩ := e.used placed atop some on
  obtain none | ⟨left', w, work, exhausted⟩ := spent
  · exact absurd (used.hasClauses atop) (by simp [none])
  obtain ⟨fuel, unfolded⟩ := e
  exact on (Prod.mk.inj (unfold_unique unfolded exhausted)).1

theorem Explored.of_spent (placed : p.Placed) (stacked : p.Stacked floor (b :: bs))
    (some : b.point.hasGoals = true) (spent : p.Spent queryHead b)
    (e : p.Explored queryHead floor (b :: bs) o bs') : p.Explored queryHead floor bs o bs' := by
  rcases e.goal_cases some with ⟨-, later⟩ | ⟨r, left, u, on, turn, -⟩
  · exact later
  · exact absurd spent (turn.not_exhausted stacked.1 some on placed)

theorem Poised.explored {x : Option Answer × List ChoicePoint × Store} (placed : p.Placed)
    (stacked : p.Stacked floor bs) (poised : p.Poised queryHead floor bs u)
    (e : p.search queryHead fuel (bs.map (·.point)) u = .ok x) :
    ∃ o bs', p.Explored queryHead floor bs o bs' ∧
      x = (o.map (·.1), bs'.map (·.point), (o.map (·.2)).getD (current floor bs')) := by
  obtain ⟨a, points, v⟩ := x
  cases poised with
  | rested =>
    obtain ⟨o, bs', explored, rfl, rfl, rfl⟩ := Explored.of_search placed stacked e
    exact ⟨o, bs', explored, rfl⟩
  | bound resumed bound spent =>
    obtain ⟨less, e⟩ := resumed.of_search placed bound e
    obtain ⟨o, bs', explored, rfl, rfl, rfl⟩ := Explored.of_search placed stacked.2 e
    exact ⟨o, bs', .dropped resumed.goals spent explored, rfl⟩

theorem Poised.search (placed : p.Placed) (stacked : p.Stacked floor bs)
    (poised : p.Poised queryHead floor bs u) (e : p.Explored queryHead floor bs o bs') :
    ∃ fuel, ∀ more, fuel ≤ more → p.search queryHead more (bs.map (·.point)) u =
      .ok (o.map (·.1), bs'.map (·.point), (o.map (·.2)).getD (current floor bs')) := by
  cases poised with
  | rested => exact e.search placed stacked
  | bound resumed bound spent =>
    obtain ⟨fuel, enough⟩ :=
      (e.of_spent placed stacked resumed.goals spent).search placed stacked.2
    obtain ⟨work, passes⟩ := resumed.search_eq placed bound
    refine ⟨max fuel work + 1, fun more le => ?_⟩
    obtain ⟨more, rfl⟩ := Nat.exists_eq_add_of_le' (Nat.le_of_add_left_le le)
    rw [List.map_cons, passes more _ (by omega)]
    exact enough more (by omega)

/-! ### Step after step -/

/-- Of the next `count` questions, each one that is answered leaves nothing of use on
top, with the bindings of the answer and without them. -/
def Settles (p : Program) (queryHead : Cell) (floor : Store) (bs : List Branch) (count : Nat) :
    Prop :=
  ∀ ts mid a w bs', p.Asked queryHead floor bs ts mid → ts.length < count →
    p.Explored queryHead floor mid (some (a, w)) bs' →
    (⟨p, w, bs'.map (·.point), queryHead⟩ : Machine).Settled ∧
      (p.resting queryHead floor bs').Settled

theorem Settles.of_settled (placed : p.Placed) (stacked : p.Stacked floor bs)
    (settled : ∀ fuel k ts n a n', k < count →
      (p.resting queryHead floor bs).asks fuel k = .ok (ts, n) →
      n.step fuel = .ok (some a, n') →
      n'.Settled ∧ ∀ undone, n'.retract a = .ok undone → undone.Settled) :
    p.Settles queryHead floor bs count := by
  intro ts mid a w bs' asked less explored
  have between := asked.stacked placed stacked
  obtain ⟨first, asks⟩ := asked.asks placed stacked
  obtain ⟨second, searched⟩ := explored.search placed between
  have stepped : (p.resting queryHead floor mid).step (max first second) =
      .ok (some a, ⟨p, w, bs'.map (·.point), queryHead⟩) :=
    Halt.bind_eq_ok.mpr ⟨_, searched _ (Nat.le_max_right ..), rfl⟩
  obtain ⟨left, undone⟩ :=
    settled _ _ _ _ _ _ less (asks _ (Nat.le_max_left first second)) stepped
  exact ⟨left, undone _ (explored.retract placed between)⟩

theorem Settles.next {t : Option Term} (settles : p.Settles queryHead floor bs (count + 1))
    (e : p.Explored queryHead floor bs o bs') (told : p.Told o t) :
    p.Settles queryHead floor bs' count :=
  fun _ _ _ _ _ asked less explored =>
    settles _ _ _ _ _ (.cons e told asked) (Nat.succ_lt_succ less) explored

/-- The store a step leaves is one to rest in until the next step. -/
theorem Settles.poised (placed : p.Placed) (stacked : p.Stacked floor bs)
    (settles : p.Settles queryHead floor bs (count + 1))
    (e : p.Explored queryHead floor bs o bs') :
    p.Poised queryHead floor bs' ((o.map (·.2)).getD (current floor bs')) := by
  obtain _ | ⟨a, w⟩ := o
  · exact .rested
  · obtain ⟨left, undone⟩ := settles _ _ _ _ _ .nil (Nat.succ_pos _) e
    exact e.poised placed stacked left undone

theorem Asked.of_steps {n : Machine} (placed : p.Placed) (stacked : p.Stacked floor bs)
    (settles : p.Settles queryHead floor bs count) (poised : p.Poised queryHead floor bs u)
    (e : (⟨p, u, bs.map (·.point), queryHead⟩ : Machine).steps fuel count = .ok (ts, n)) :
    ∃ bs', p.Asked queryHead floor bs ts bs' ∧ ts.length = count := by
  induction count generalizing bs u ts with
  | zero =>
    cases e
    exact ⟨bs, .nil, rfl⟩
  | succ count ih =>
    obtain ⟨⟨t, m⟩, peeked, e⟩ := Halt.bind_eq_ok.mp e
    obtain ⟨⟨ts, m'⟩, later, e⟩ := Halt.bind_eq_ok.mp e
    cases e
    obtain ⟨⟨a, k⟩, stepped, peeked⟩ := Halt.bind_eq_ok.mp peeked
    obtain ⟨x, searched, stepped⟩ := Halt.bind_eq_ok.mp stepped
    cases stepped
    obtain ⟨o, mid, explored, rfl⟩ := poised.explored placed stacked searched
    have next := settles.poised placed stacked explored
    obtain ⟨told, rfl⟩ : p.Told o t ∧
        m = ⟨p, (o.map (·.2)).getD (current floor mid), mid.map (·.point), queryHead⟩ := by
      obtain _ | ⟨a, w⟩ := o
      · cases peeked
        exact ⟨rfl, rfl⟩
      · obtain ⟨y, read, same⟩ := Halt.bind_eq_ok.mp peeked
        cases same
        exact ⟨⟨y, read, rfl⟩, rfl⟩
    obtain ⟨bs', asked, length⟩ :=
      ih (explored.stacked placed stacked).1 (settles.next explored told) next later
    exact ⟨bs', .cons explored told asked, by rw [List.length_cons, length]⟩

theorem Asked.steps (placed : p.Placed) (stacked : p.Stacked floor bs)
    (settles : p.Settles queryHead floor bs ts.length) (poised : p.Poised queryHead floor bs u)
    (e : p.Asked queryHead floor bs ts bs') :
    ∃ fuel, ∀ more, fuel ≤ more → ∃ n,
      (⟨p, u, bs.map (·.point), queryHead⟩ : Machine).steps more ts.length = .ok (ts, n) := by
  induction e generalizing u with
  | nil => exact ⟨0, fun _ _ => ⟨_, rfl⟩⟩
  | @cons bs mid _ o t _ explored told _ ih =>
    obtain ⟨first, once⟩ := poised.search placed stacked explored
    obtain ⟨others, again⟩ := ih (explored.stacked placed stacked).1 (settles.next explored told)
      (settles.poised placed stacked explored)
    refine ⟨max first others, fun more le => ?_⟩
    obtain ⟨n, later⟩ := again more (by omega)
    have stepped : (⟨p, u, bs.map (·.point), queryHead⟩ : Machine).step more = .ok (o.map (·.1),
        ⟨p, (o.map (·.2)).getD (current floor mid), mid.map (·.point), queryHead⟩) :=
      Halt.bind_eq_ok.mpr ⟨_, once more (by omega), rfl⟩
    have peeked : (⟨p, u, bs.map (·.point), queryHead⟩ : Machine).peek more = .ok (t,
        ⟨p, (o.map (·.2)).getD (current floor mid), mid.map (·.point), queryHead⟩) := by
      refine Halt.bind_eq_ok.mpr ⟨_, stepped, ?_⟩
      obtain _ | ⟨a, w⟩ := o
      · cases told
        rfl
      · obtain ⟨y, read, rfl⟩ := told
        exact Halt.bind_eq_ok.mpr ⟨y, read, rfl⟩
    exact ⟨n, Halt.bind_eq_ok.mpr ⟨_, peeked, Halt.bind_eq_ok.mpr ⟨_, later, rfl⟩⟩⟩

end Program

namespace Machine

theorem Settled.of_stack {m : Machine} (none : m.stack.head?.all (!·.hasClauses) = true) :
    m.Settled := by
  intro q top
  rw [top] at none
  exact .inl (by simpa using none)

/-- Stepping with nothing in between answers what asking answers, if every answer leaves
on top a choice point without a candidate of use, with the bindings of the answer and
without them. -/
theorem steps_iff_asks {settings : Settings} {text : String} {m : Machine} {count : Nat}
    (e : ofText settings text = (.ok (.ok m) : Except Halt (Except LoadError Machine)))
    (settled : ∀ fuel k ts n a n', k < count → m.asks fuel k = .ok (ts, n) →
      n.step fuel = .ok (some a, n') →
      n'.Settled ∧ ∀ undone, n'.retract a = .ok undone → undone.Settled)
    (ts : List (Option Term)) :
    (∃ fuel n, m.steps fuel count = .ok (ts, n)) ↔
      ∃ fuel n, m.asks fuel count = .ok (ts, n) := by
  obtain ⟨ss, codes, t, -, -, -, loaded⟩ := LoadedFrom.of_ofText e
  obtain ⟨rules, query, rfl⟩ := loaded.exists_last
  have settles : m.program.Settles m.queryHead m.store [m.start] count :=
    .of_settled loaded.placed loaded.stacked fun fuel k _ _ _ _ less asked =>
      settled _ _ _ _ _ _ less ((congrArg (Machine.asks · fuel k) loaded.resting).trans asked)
  constructor
  · rintro ⟨fuel, n, stepped⟩
    have stepped := (congrArg (Machine.steps · fuel count) loaded.resting).symm.trans stepped
    obtain ⟨bs', asked, rfl⟩ :=
      Program.Asked.of_steps loaded.placed loaded.stacked settles .rested stepped
    obtain ⟨work, asks⟩ := asked.asks loaded.placed loaded.stacked
    exact ⟨work, _, (congrArg (Machine.asks · _ _) loaded.resting).trans
      (asks work (Nat.le_refl _))⟩
  · rintro ⟨fuel, n, asks⟩
    have asks := (congrArg (Machine.asks · fuel count) loaded.resting).symm.trans asks
    obtain ⟨bs', asked, rfl, -⟩ := Program.Asked.of_asks loaded.placed loaded.stacked asks
    obtain ⟨work, steps⟩ := asked.steps loaded.placed loaded.stacked settles .rested
    obtain ⟨n', stepped⟩ := steps work (Nat.le_refl _)
    exact ⟨work, n', (congrArg (Machine.steps · _ _) loaded.resting).trans stepped⟩

/-- With an index nothing is left to the last goal, and both answers of the first one are
found. -/
theorem steps_iff_asks_indexed :
    ∃ m n : Machine, ofText ⟨0, 1, 0⟩ "p a .\np b .\nq c .\ngo X if p X and q Y ." =
        (.ok (.ok m) : Except Halt (Except LoadError Machine)) ∧
      m.asks 9 3 = .ok ([some (.array [.label "go", .label "a"]),
        some (.array [.label "go", .label "b"]), none], n) ∧
      ∀ ts, (∃ fuel n, m.steps fuel 3 = .ok (ts, n)) ↔
        ∃ fuel n, m.asks fuel 3 = .ok (ts, n) := by
  have loads : (ofText ⟨0, 1, 0⟩ "p a .\np b .\nq c .\ngo X if p X and q Y ." :
      Except Halt (Except LoadError Machine)).toOption.any (fun r =>
        r.toOption.any fun m =>
          (m.asks 9 3).toOption.any (fun r => decide (r.1 =
            [some (.array [.label "go", .label "a"]),
              some (.array [.label "go", .label "b"]), none])) &&
          (List.range 3).all fun k => (m.asks 9 k).toOption.any fun (_, n) =>
            (n.step 9).toOption.any fun (_, n) =>
              n.stack.head?.all (!·.hasClauses)) = true := by
    decide +kernel
  obtain ⟨m, loaded, check⟩ := exists_loaded loads
  obtain ⟨answers, tops⟩ := Bool.and_eq_true_iff.mp check
  obtain ⟨⟨ts, n⟩, asked, same⟩ := exists_ok_of_any answers
  obtain rfl := of_decide_eq_true same
  refine ⟨m, n, loaded, asked, steps_iff_asks loaded ?_⟩
  intro fuel k ts n a n' less asked stepped
  have here := List.all_eq_true.mp tops k (List.mem_range.mpr less)
  obtain ⟨⟨ts₁, n₁⟩, asked₁, here⟩ := exists_ok_of_any here
  obtain ⟨⟨a₂, n₂⟩, stepped₂, top⟩ := exists_ok_of_any here
  cases asks_unique asked₁ asked
  cases step_unique stepped₂ stepped
  refine ⟨.of_stack top, fun undone retracted => .of_stack ?_⟩
  obtain ⟨s, -, same⟩ := Halt.bind_eq_ok.mp retracted
  cases same
  exact top

/-- A goal with two clauses: stepping tries the second one under the bindings of the
first answer, and loses the second answer. -/
theorem steps_ne_asks :
    ∃ (m n n' : Machine) (ts ts' : List (Option Term)),
      ofText {} "p a .\np b .\ngo X if p X ." =
        (.ok (.ok m) : Except Halt (Except LoadError Machine)) ∧
      m.steps 9 3 = .ok (ts, n) ∧ m.asks 9 3 = .ok (ts', n') ∧
      ts = [some (.array [.label "go", .label "a"]), none, none] ∧
      ts' = [some (.array [.label "go", .label "a"]),
        some (.array [.label "go", .label "b"]), none] := by
  have loads : (ofText {} "p a .\np b .\ngo X if p X ." :
      Except Halt (Except LoadError Machine)).toOption.any (fun r =>
        r.toOption.any fun m =>
          (m.steps 9 3).toOption.any (fun r => decide (r.1 =
            [some (.array [.label "go", .label "a"]), none, none])) &&
          (m.asks 9 3).toOption.any (fun r => decide (r.1 =
            [some (.array [.label "go", .label "a"]),
              some (.array [.label "go", .label "b"]), none]))) = true := by
    decide +kernel
  obtain ⟨m, loaded, check⟩ := exists_loaded loads
  obtain ⟨steps, asks⟩ := Bool.and_eq_true_iff.mp check
  obtain ⟨⟨ts, n⟩, stepped, bound⟩ := exists_ok_of_any steps
  obtain ⟨⟨ts', n'⟩, asked, undone⟩ := exists_ok_of_any asks
  exact ⟨m, n, n', ts, ts', loaded, stepped, asked, of_decide_eq_true bound,
    of_decide_eq_true undone⟩

end Machine

end HornMachine
