import HornMachine.Proofs.Asking
import HornMachine.Proofs.Candidates

/-!
# Two searches in lockstep

What a branch does next depends on its store, its goals and the live clauses it
has left. So two programs with the same clauses, whatever the keys and candidates
they filter them by, go through the same branches as long as they agree on which
clauses are live: every branch is dropped, descends or answers in both at once.
-/
namespace HornMachine

/-- The clauses differ in their keys at most. -/
def Clause.Alike (c d : Clause) : Prop := ∃ keys, d = { c with keys }

theorem Clause.Alike.resolves {c d : Clause} (alike : c.Alike d) {fuel : Nat} {goal : Cell}
    {t u : Store} : d.Resolves fuel goal t u ↔ c.Resolves fuel goal t u := by
  obtain ⟨keys, rfl⟩ := alike
  rfl

/-- The same clauses but for their keys. -/
structure Program.Alike (p q : Program) : Prop where
  size : p.clauses.size = q.clauses.size
  clause : ∀ (id : Nat) (c d : Clause), p.clauses[id]? = some c → q.clauses[id]? = some d →
    c.Alike d

namespace Program

variable {p q : Program} {queryHead : Cell} {floor below : Store} {b b' : Branch}
  {bs bs' cs cs' : List Branch} {o o' : Option (Answer × Store)} {r : Resolution}
  {left : ChoicePoint} {u : Store}

theorem Alike.resolution (alike : p.Alike q) {c d : Clause} (clause : c.Alike d)
    (queryHead : Cell) (rest : List Cell) (t : Store) :
    q.resolution queryHead rest d t = p.resolution queryHead rest c t := by
  obtain ⟨keys, rfl⟩ := clause
  unfold Program.resolution
  rw [alike.size]
  rfl

/-- The clause numbered `id` is not ruled out by its keys and resolves the goal. -/
def Live (p : Program) (goal : Cell) (keys : Keys) (t : Store) (id : Nat) : Prop :=
  ∃ c, p.clauses[id]? = some c ∧ keys.admits c.keys = true ∧
    ∃ fuel u, c.Resolves fuel goal t u

open Classical in
/-- The live clauses of a list, in order. -/
noncomputable def live (p : Program) (goal : Cell) (keys : Keys) (t : Store) (ids : List Nat) :
    List Nat :=
  ids.filter fun id => p.Live goal keys t id

theorem Refuted.not_live {goal : Cell} {keys : Keys} {t : Store} {id : Nat}
    (refuted : p.Refuted goal keys t id) : ¬ p.Live goal keys t id := by
  rintro ⟨d, found', admitted, fuel, u, resolves⟩
  obtain ⟨c, found, clash⟩ := refuted
  obtain rfl : c = d := Option.some.inj (found.symm.trans found')
  obtain ⟨work, fails⟩ := clash admitted
  exact fails.not_resolves resolves

theorem live_of_refuted {goal : Cell} {keys : Keys} {t : Store} {ids : List Nat}
    (all : ∀ id ∈ ids, p.Refuted goal keys t id) : p.live goal keys t ids = [] := by
  rw [live, List.filter_eq_nil_iff]
  intro id member
  simpa using (all id member).not_live

theorem live_candidatesFor (indexed : p.Indexed) (goal : Cell) (keys : Keys) (t : Store) :
    p.live goal keys t (p.candidatesFor keys).toList =
      p.live goal keys t (List.range p.clauses.size) := by
  obtain ⟨selected, candidates, complete⟩ := exists_selected indexed keys
  rw [candidates, live, live, List.filter_filter]
  refine List.filter_congr fun id _ => ?_
  by_cases alive : p.Live goal keys t id
  · have ⟨c, found, admits, _⟩ := alive
    simp [alive, complete id c found admits]
  · simp [alive]

theorem Spent.live (placed : p.Placed) (clauses : 0 < p.clauses.size) (atop : p.Over below b)
    (goals : b.point.hasGoals = true) (spent : p.Spent queryHead b) :
    ∃ goal rest keys, b.point.goals = goal :: rest ∧
      Keys.ofRef b.store.heap goal p.settings.positions = .ok keys ∧
      p.live goal keys b.store (p.keyed keys b.point).pending = [] := by
  obtain ⟨goal, rest, keys, list, exact, all⟩ := spent.refuted placed clauses atop goals
  exact ⟨goal, rest, keys, list, exact, live_of_refuted all⟩

theorem Used.live {goal : Cell} {rest : List Cell} {keys : Keys} {before ids : List Nat}
    {id : Nat} {c : Clause} (used : p.Used queryHead b r left u goal rest keys before id ids c) :
    p.live goal keys b.store (p.keyed keys b.point).pending =
      id :: p.live goal keys b.store ids := by
  obtain ⟨fuel, resolves⟩ := used.resolves
  have alive : p.Live goal keys b.store id :=
    ⟨c, used.found, used.admitted, fuel, u, resolves⟩
  have none := live_of_refuted used.skipped
  rw [used.pending]
  unfold Program.live at none ⊢
  rw [List.filter_append, none, List.nil_append, List.filter_cons_of_pos (by simpa using alive)]

theorem Unfolds.fresh {next : ChoicePoint} (placed : p.Placed) (atop : p.Over below b)
    (goals : b.point.hasGoals = true) (e : p.Unfolds queryHead b (.advanced next) left u) :
    ∃ head base goals mark, next = .fresh head base goals mark p.clauses.size := by
  obtain ⟨goal, rest, keys, before, id, ids, c, used⟩ := e.used placed atop goals nofun
  obtain ⟨-, rfl⟩ := resolution_eq_advanced.mp used.result.symm
  exact ⟨_, _, _, _, rfl⟩

/-- Branches of the two searches that will behave alike. -/
structure Agree (p q : Program) (b b' : Branch) : Prop where
  store : b'.store = b.store
  head : b'.point.head = b.point.head
  base : b'.point.base = b.point.base
  trailMark : b'.point.trailMark = b.point.trailMark
  goals : b'.point.goals = b.point.goals
  live : ∀ goal rest keys keys', b.point.goals = goal :: rest →
    Keys.ofRef b.store.heap goal p.settings.positions = .ok keys →
    Keys.ofRef b.store.heap goal q.settings.positions = .ok keys' →
    q.live goal keys' b.store (q.keyed keys' b'.point).pending =
      p.live goal keys b.store (p.keyed keys b.point).pending

theorem Agree.hasGoals (agree : Agree p q b b') : b'.point.hasGoals = b.point.hasGoals := by
  rw [ChoicePoint.hasGoals, ChoicePoint.hasGoals, agree.goals]

theorem current_agree (agree : List.Forall₂ (Agree p q) bs cs) :
    current floor cs = current floor bs := by
  cases agree with
  | nil => rfl
  | cons first _ => exact first.store

/-- The two programs agree on which clauses are live for the first goal of the
branch. -/
def SameLive (p q : Program) (b : Branch) : Prop :=
  ∀ goal rest keys keys', b.point.goals = goal :: rest →
    Keys.ofRef b.store.heap goal p.settings.positions = .ok keys →
    Keys.ofRef b.store.heap goal q.settings.positions = .ok keys' →
    ∀ id, q.Live goal keys' b.store id ↔ p.Live goal keys b.store id

/-- New branches agree when the programs agree on the live clauses. -/
theorem SameLive.fresh (alike : p.Alike q) (indexed : p.Indexed) (indexed' : q.Indexed)
    {head : Cell} {base : Nat} {goals : List Cell} {mark : Nat}
    (same : SameLive p q ⟨.fresh head base goals mark p.clauses.size, u⟩) :
    Agree p q ⟨.fresh head base goals mark p.clauses.size, u⟩
      ⟨.fresh head base goals mark q.clauses.size, u⟩ := by
  refine ⟨rfl, rfl, rfl, rfl, rfl, ?_⟩
  intro goal rest keys keys' list exact exact'
  change q.live goal keys' u (q.candidatesFor keys').toList =
    p.live goal keys u (p.candidatesFor keys).toList
  rw [live_candidatesFor indexed, live_candidatesFor indexed', alike.size]
  refine List.filter_congr fun id _ => ?_
  simp only [decide_eq_decide]
  exact same goal rest keys keys' list exact exact' id

/-- Two turns from branches that agree use the same clause and lead to the same
store, and what they leave agrees again. -/
theorem Agree.turn {r' : Resolution} {left' : ChoicePoint} {u' : Store} {below' : Store}
    (alike : p.Alike q) (placed : p.Placed) (placed' : q.Placed) (atop : p.Over below b)
    (atop' : q.Over below' b') (agree : Agree p q b b') (goals : b.point.hasGoals = true)
    (e : p.Unfolds queryHead b r left u) (e' : q.Unfolds queryHead b' r' left' u')
    (on : r ≠ .exhausted) (on' : r' ≠ .exhausted) :
    r' = r ∧ u' = u ∧ Agree p q ⟨left, b.store⟩ ⟨left', b'.store⟩ := by
  obtain ⟨goal, rest, keys, before, id, ids, c, used⟩ := e.used placed atop goals on
  obtain ⟨goal', rest', keys', before', id', ids', d, used'⟩ :=
    e'.used placed' atop' (agree.hasGoals.trans goals) on'
  obtain ⟨rfl, rfl⟩ : goal' = goal ∧ rest' = rest := by
    have list := used'.goals
    rw [agree.goals, used.goals, List.cons.injEq] at list
    exact ⟨list.1.symm, list.2.symm⟩
  have exact' := used'.exact
  have live' := used'.live
  rw [agree.store] at exact' live'
  have same := agree.live goal' rest' keys keys' used.goals used.exact exact'
  rw [used.live, live', List.cons.injEq] at same
  obtain ⟨rfl, same⟩ := same
  have clause := alike.clause _ c d used.found used'.found
  obtain ⟨fuel, resolves⟩ := used.resolves
  obtain ⟨fuel', resolves'⟩ := used'.resolves
  rw [clause.resolves, agree.store] at resolves'
  refine ⟨?_, resolves'.unique resolves, ?_⟩
  · rw [used'.result, used.result, agree.store]
    exact alike.resolution clause queryHead rest' b.store
  · rw [used.left, used'.left]
    refine ⟨agree.store, agree.head, agree.base, agree.trailMark, agree.goals, ?_⟩
    intro g gs k k' list exact₂ exact₂'
    obtain ⟨rfl, rfl⟩ : goal' = g ∧ rest' = gs := by
      have same : b.point.goals = g :: gs := list
      rw [used.goals, List.cons.injEq] at same
      exact same
    obtain rfl : keys = k := Except.ok.inj (used.exact.symm.trans exact₂)
    obtain rfl : keys' = k' := Except.ok.inj (exact'.symm.trans exact₂')
    dsimp only
    rw [pending_keyed_leaving used.suffix, pending_keyed_leaving used'.suffix]
    exact same

theorem Agree.not_spent {r' : Resolution} {left' : ChoicePoint} {u' : Store} {below' : Store}
    (placed : p.Placed) (placed' : q.Placed) (some : 0 < p.clauses.size)
    (atop : p.Over below b) (atop' : q.Over below' b') (agree : Agree p q b b')
    (goals : b.point.hasGoals = true) (spent : p.Spent queryHead b)
    (e' : q.Unfolds queryHead b' r' left' u') (on' : r' ≠ .exhausted) : False := by
  obtain ⟨goal, rest, keys, list, exact, none⟩ := spent.live placed some atop goals
  obtain ⟨goal', rest', keys', before', id', ids', d, used'⟩ :=
    e'.used placed' atop' (agree.hasGoals.trans goals) on'
  obtain ⟨rfl, rfl⟩ : goal' = goal ∧ rest' = rest := by
    have list' := used'.goals
    rw [agree.goals, list, List.cons.injEq] at list'
    exact ⟨list'.1.symm, list'.2.symm⟩
  have exact' := used'.exact
  have live' := used'.live
  rw [agree.store] at exact' live'
  have same := agree.live goal' rest' keys keys' list exact exact'
  rw [none, live'] at same
  cases same

theorem Agree.symm (agree : Agree p q b b') : Agree q p b' b where
  store := agree.store.symm
  head := agree.head.symm
  base := agree.base.symm
  trailMark := agree.trailMark.symm
  goals := agree.goals.symm
  live goal rest keys keys' list exact exact' := by
    rw [agree.store] at exact exact' ⊢
    rw [agree.goals] at list
    exact (agree.live goal rest keys' keys list exact' exact).symm

/-- What holds of the branches of a search and lets two programs agree on live
clauses. -/
structure Invariant (p q : Program) (queryHead : Cell) (I : Branch → Prop) : Prop where
  turn : ∀ {b : Branch} {r : Resolution} {left : ChoicePoint} {u : Store}, I b →
    b.point.hasGoals = true → p.Unfolds queryHead b r left u →
      I ⟨left, b.store⟩ ∧ ∀ next, r = .advanced next → I ⟨next, u⟩
  live : ∀ {b : Branch}, I b → SameLive p q b

theorem Agree.next {next : ChoicePoint} (alike : p.Alike q) (indexed : p.Indexed)
    (indexed' : q.Indexed) (placed : p.Placed) (atop : p.Over below b)
    (goals : b.point.hasGoals = true) (e : p.Unfolds queryHead b (.advanced next) left u)
    (live : SameLive p q ⟨next, u⟩) : Agree p q ⟨next, u⟩ ⟨next, u⟩ := by
  obtain ⟨head, base, gs, mark, rfl⟩ := e.fresh placed atop goals
  have same := live.fresh alike indexed indexed'
  rwa [← alike.size] at same

/-- Two explorations of branches that agree end with the same answer, and leave
branches that agree. -/
theorem Explored.agree {I : Branch → Prop} (invariant : Invariant p q queryHead I)
    (alike : p.Alike q) (some : 0 < p.clauses.size) (placed : p.Placed) (placed' : q.Placed)
    (indexed : p.Indexed) (indexed' : q.Indexed) (stacked : p.Stacked floor bs)
    (stacked' : q.Stacked floor cs) (start : ∀ b ∈ bs, I b)
    (agree : List.Forall₂ (Agree p q) bs cs) (e : p.Explored queryHead floor bs o bs')
    (e' : q.Explored queryHead floor cs o' cs') :
    o' = o ∧ List.Forall₂ (Agree p q) bs' cs' := by
  have some' : 0 < q.clauses.size := alike.size ▸ some
  induction e generalizing cs o' cs' with
  | finished =>
    cases agree
    cases e'
    exact ⟨rfl, .nil⟩
  | barren goals =>
    obtain _ | ⟨same, rest⟩ := agree
    rw [← same.hasGoals] at goals
    cases e' with
    | barren _ => exact ⟨by rw [same.head, same.trailMark, same.base, current_agree rest], rest⟩
    | dropped other => simp [goals] at other
    | descended other => simp [goals] at other
    | answered other => simp [goals] at other
  | dropped goals spent _ ih =>
    obtain _ | ⟨same, rest⟩ := agree
    rcases e'.goal_cases (same.hasGoals.trans goals) with ⟨-, later⟩ | ⟨r', _, _, on, turn', -⟩
    · exact ih stacked.2 stacked'.2 (List.forall_mem_cons.mp start).2 rest later
    · exact (same.not_spent placed placed' some stacked.1 stacked'.1 goals spent turn' on).elim
  | @descended _ _ _ _ next _ _ goals _ turn _ ih =>
    obtain _ | ⟨same, rest⟩ := agree
    have goals' := same.hasGoals.trans goals
    rcases e'.goal_cases goals' with ⟨spent, -⟩ | ⟨r', left', u', on, turn', led⟩
    · exact (same.symm.not_spent placed' placed some' stacked'.1 stacked.1 goals' spent turn
        nofun).elim
    obtain ⟨rfl, rfl, leaves⟩ := same.turn alike placed placed' stacked.1 stacked'.1 goals turn
      turn' nofun on
    obtain ⟨next', advanced, later⟩ | ⟨a, answered, -⟩ := led
    · cases advanced
      obtain ⟨top, below⟩ := List.forall_mem_cons.mp start
      obtain ⟨kept, fresh⟩ := invariant.turn top goals turn
      have first := fresh next rfl
      have equal := Agree.next alike indexed indexed' placed stacked.1 goals turn
        (invariant.live first)
      exact ih (stacked.descend placed goals turn) (stacked'.descend placed' goals' turn')
        (List.forall_mem_cons.mpr ⟨first, List.forall_mem_cons.mpr ⟨kept, below⟩⟩)
        (.cons equal (.cons leaves rest)) later
    · cases answered
  | answered goals _ turn =>
    obtain _ | ⟨same, rest⟩ := agree
    have goals' := same.hasGoals.trans goals
    rcases e'.goal_cases goals' with ⟨spent, -⟩ | ⟨r', left', u', on, turn', led⟩
    · exact (same.symm.not_spent placed' placed some' stacked'.1 stacked.1 goals' spent turn
        nofun).elim
    obtain ⟨rfl, rfl, leaves⟩ := same.turn alike placed placed' stacked.1 stacked'.1 goals turn
      turn' nofun on
    obtain ⟨next', advanced, -⟩ | ⟨a, answered, rfl, rfl⟩ := led
    · cases advanced
    · cases answered
      exact ⟨rfl, .cons leaves rest⟩

/-- As long as both go on, the two programs answer the same. -/
theorem Asked.agree {I : Branch → Prop} {ts ts' : List (Option Term)}
    (invariant : Invariant p q queryHead I) (alike : p.Alike q) (symbols : q.symbols = p.symbols)
    (some : 0 < p.clauses.size) (placed : p.Placed) (placed' : q.Placed) (indexed : p.Indexed)
    (indexed' : q.Indexed) (stacked : p.Stacked floor bs) (stacked' : q.Stacked floor cs)
    (start : ∀ b ∈ bs, I b) (agree : List.Forall₂ (Agree p q) bs cs)
    (e : p.Asked queryHead floor bs ts bs') (e' : q.Asked queryHead floor cs ts' cs')
    (length : ts'.length = ts.length) : ts' = ts ∧ List.Forall₂ (Agree p q) bs' cs' := by
  induction e generalizing cs ts' cs' with
  | nil =>
    cases e' with
    | nil => exact ⟨rfl, agree⟩
    | cons _ _ _ => simp at length
  | @cons _ _ _ o t _ explored told _ ih =>
    cases e' with
    | nil => simp at length
    | @cons _ _ _ o' t' _ explored' told' later =>
      obtain ⟨rfl, between⟩ := explored.agree invariant alike some placed placed' indexed indexed'
        stacked stacked' start agree explored'
      have first : t' = t := by
        obtain _ | ⟨a, u⟩ := o'
        · exact told'.trans told.symm
        · obtain ⟨x, read, rfl⟩ := told
          obtain ⟨y, read', rfl⟩ := told'
          rw [symbols, read, Except.ok.injEq] at read'
          rw [read']
      obtain ⟨rest, final⟩ := ih (explored.stacked placed stacked).1
        (explored'.stacked placed' stacked').1 (explored.forall_branches invariant.turn start)
        between later (by simpa using length)
      exact ⟨by rw [first, rest], final⟩

end Program

end HornMachine
