import HornMachine.Proofs.UncalledSearch
import HornMachine.Proofs.Walks

/-!
# Plain depth-first resolution

The reference is the recursive search one would write down first. Every choice
keeps its own heap, so nothing is ever undone. The leftmost goal is tried with
all clauses in order, without keys or index; each attempt copies the complete
code of the clause and unifies its head. Success goes on with the body goals in
front of the remaining ones, and when no goals remain the head of the query is
read out.

As long as the query is not called, the machine answers what the reference
yields, term for term.
-/
namespace HornMachine

/-- The answers of a search, in order, and what stopped it before it was through. -/
structure Listing where
  answers : List Term
  stop : Option Halt

namespace Listing

def stopped (halt : Halt) : Listing := ⟨[], some halt⟩

/-- One listing after another, unless the first was stopped. -/
def append (l m : Listing) : Listing :=
  match l.stop with
  | some halt => ⟨l.answers, some halt⟩
  | none => ⟨l.answers ++ m.answers, m.stop⟩

end Listing

namespace Reference

/-- Read out the head of the query. -/
def answer (symbols : Symbols) (queryHead : Cell) (h : Heap) : Listing :=
  match h.readout symbols queryHead with
  | .ok x => ⟨[x], none⟩
  | .error halt => .stopped halt

/-- Try the codes in turn on a goal, and go on with `search` after each success. -/
def tryCodes (search : List Cell → Heap → Listing) (fuel : Nat) (goal : Cell) (rest : List Cell)
    (h : Heap) : List ClauseCode → Listing
  | [] => ⟨[], none⟩
  | code :: codes =>
    match code.attempt fuel goal h with
    | .error halt => .stopped halt
    | .ok (false, _) => tryCodes search fuel goal rest h codes
    | .ok (true, k) =>
      (search (code.body.map (·.relocate h.top) ++ rest) k).append
        (tryCodes search fuel goal rest h codes)

/-- Resolve the goals from left to right, the latest first. -/
def search (codes : List ClauseCode) (symbols : Symbols) (queryHead : Cell) :
    Nat → List Cell → Heap → Listing
  | _, [], h => answer symbols queryHead h
  | 0, _ :: _, _ => .stopped .unfinished
  | fuel + 1, goal :: rest, h =>
    tryCodes (search codes symbols queryHead fuel) fuel goal rest h codes

/-- Store the codes one behind the other and search for the goals of the last. -/
def run (codes : List ClauseCode) (symbols : Symbols) (fuel : Nat) : Listing :=
  match codes.getLast?, Heap.empty.pushAll (imageFrom 0 codes) with
  | some query, .ok h =>
    let base := h.top - query.size
    search codes symbols (query.head.relocate base) fuel (query.body.map (·.relocate base)) h
  | some _, .error halt => .stopped halt
  | none, _ => ⟨[], none⟩

end Reference

namespace Program

variable {p : Program} {w : Codes} {s : Nat} {queryHead goal : Cell} {floor below u : Store}
  {b : Branch} {bs mid : List Branch} {l m : Listing} {rest : List Cell} {keys : Keys}
  {codes : List ClauseCode} {i fuel : Nat}

/-- The machine answers what is listed, and if the listing is complete it gets
through to the branches `rest`. -/
structure Follows (p : Program) (queryHead : Cell) (floor : Store) (bs : List Branch)
    (l : Listing) (rest : List Branch) : Prop where
  answers : ∃ bs', p.Walk queryHead floor bs l.answers bs'
  through : l.stop = none → p.Walk queryHead floor bs l.answers rest

theorem Follows.stopped (p : Program) (queryHead : Cell) (floor : Store) (bs : List Branch)
    (halt : Halt) (rest : List Branch) : p.Follows queryHead floor bs (.stopped halt) rest :=
  ⟨⟨bs, .done⟩, nofun⟩

theorem Follows.of_walk (walk : p.Walk queryHead floor bs l.answers mid) :
    p.Follows queryHead floor bs l mid :=
  ⟨⟨mid, walk⟩, fun _ => walk⟩

theorem Follows.append {rest : List Branch} (first : p.Follows queryHead floor bs l mid)
    (second : p.Follows queryHead floor mid m rest) :
    p.Follows queryHead floor bs (l.append m) rest := by
  unfold Listing.append
  cases ended : l.stop with
  | some halt => exact ⟨first.answers, nofun⟩
  | none =>
    have walk := first.through ended
    obtain ⟨bs', later⟩ := second.answers
    exact ⟨⟨bs', walk.trans later⟩, fun complete => walk.trans (second.through complete)⟩

theorem Follows.cons {xs : List Term} {rest : List Branch}
    (move : p.Move queryHead floor bs xs mid) (later : p.Follows queryHead floor mid l rest) :
    p.Follows queryHead floor bs ⟨xs ++ l.answers, l.stop⟩ rest := by
  obtain ⟨bs', walk⟩ := later.answers
  exact ⟨⟨bs', .move move walk⟩, fun complete => .move move (later.through complete)⟩

/-- All candidates of a branch before the clause `i` are refuted, and none from
there on is missing. -/
structure Awaits (p : Program) (goal : Cell) (keys : Keys) (b : Branch) (i : Nat) : Prop where
  exact : Keys.ofRef b.store.heap goal p.settings.positions = .ok keys
  ascending : (p.keyed keys b.point).pending.Pairwise (· < ·)
  bounded : ∀ id ∈ (p.keyed keys b.point).pending, id < p.clauses.size
  refuted : ∀ id ∈ (p.keyed keys b.point).pending, id < i → p.Refuted goal keys b.store id
  complete : ∀ id c, i ≤ id → p.clauses[id]? = some c → keys.admits c.keys = true →
    id ∈ (p.keyed keys b.point).pending

theorem Awaits.fresh (indexed : p.Indexed) {head : Cell} {base mark : Nat} {goals : List Cell}
    (exact : Keys.ofRef u.heap goal p.settings.positions = .ok keys) :
    p.Awaits goal keys ⟨.fresh head base goals mark p.clauses.size, u⟩ 0 := by
  obtain ⟨selected, candidates, complete⟩ := exists_selected indexed keys
  have pending : (p.keyed keys (.fresh head base goals mark p.clauses.size)).pending =
      (List.range p.clauses.size).filter selected := candidates
  refine ⟨exact, ?_, ?_, fun _ _ early => absurd early (Nat.not_lt_zero _), ?_⟩
  · rw [pending]
    exact List.pairwise_lt_range.filter _
  · intro id member
    rw [pending, List.mem_filter, List.mem_range] at member
    exact member.1
  · intro id c _ found admitted
    rw [pending, List.mem_filter, List.mem_range]
    exact ⟨(Array.getElem?_eq_some_iff.mp found).choose, complete id c found admitted⟩

theorem Awaits.skip (awaits : p.Awaits goal keys b i) (refuted : p.Refuted goal keys b.store i) :
    p.Awaits goal keys b (i + 1) where
  exact := awaits.exact
  ascending := awaits.ascending
  bounded := awaits.bounded
  refuted id member early := by
    rcases Nat.lt_succ_iff_lt_or_eq.mp early with before | rfl
    · exact awaits.refuted id member before
    · exact refuted
  complete id c le := awaits.complete id c (Nat.le_of_succ_le le)

/-- The awaited clause is used when it resolves the goal, and the branch left
awaits the next one. -/
theorem Awaits.use {c : Clause} (awaits : p.Awaits goal keys b i) (queryHead : Cell)
    (goals : b.point.goals = goal :: rest) (found : p.clauses[i]? = some c)
    (admitted : keys.admits c.keys = true) (resolves : c.Resolves fuel goal b.store u) :
    ∃ before ids, p.Used queryHead b (p.resolution queryHead rest c b.store)
        ((p.keyed keys b.point).leaving ids) u goal rest keys before i ids c ∧
      p.Awaits goal keys ⟨(p.keyed keys b.point).leaving ids, b.store⟩ (i + 1) := by
  obtain ⟨before, ids, pending⟩ :=
    List.append_of_mem (awaits.complete i c (Nat.le_refl i) found admitted)
  have ascending := awaits.ascending
  rw [pending, List.pairwise_append, List.pairwise_cons] at ascending
  obtain ⟨-, ⟨above, ascending⟩, below⟩ := ascending
  have used : p.Used queryHead b (p.resolution queryHead rest c b.store)
      ((p.keyed keys b.point).leaving ids) u goal rest keys before i ids c := by
    refine ⟨goals, awaits.exact, pending, fun id member => ?_, found, admitted,
      ⟨fuel, resolves⟩, rfl, rfl⟩
    refine awaits.refuted id ?_ (below id member i (List.mem_cons_self ..))
    rw [pending]
    exact List.mem_append_left _ member
  refine ⟨before, ids, used, awaits.exact, ?_, ?_, ?_, ?_⟩
  · rw [pending_keyed_leaving used.suffix]
    exact ascending
  · intro id member
    rw [pending_keyed_leaving used.suffix] at member
    refine awaits.bounded id ?_
    rw [pending]
    exact List.mem_append_right _ (List.mem_cons_of_mem _ member)
  · intro id member early
    rw [pending_keyed_leaving used.suffix] at member
    have := above id member
    omega
  · intro id d le found' admitted'
    have member := awaits.complete id d (by omega) found' admitted'
    rw [pending_keyed_leaving used.suffix]
    rw [pending] at member
    rcases List.mem_append.mp member with early | later
    · have := below id early i (List.mem_cons_self ..)
      omega
    · rcases List.mem_cons.mp later with rfl | after
      · omega
      · exact after

theorem Awaits.spent (placed : p.Placed) (atop : p.Over below b)
    (goals : b.point.goals = goal :: rest) (awaits : p.Awaits goal keys b p.clauses.size) :
    p.Spent queryHead b :=
  .of_refuted placed atop goals awaits.exact fun id member =>
    awaits.refuted id member (awaits.bounded id member)

/-! ### Following the reference -/

theorem Runs.code_cases (runs : p.Runs w) {code : ClauseCode}
    (listed : (w.rules ++ [w.query])[i]? = some code) :
    w.rules[i]? = some code ∨ code = w.query ∧
      p.clauses[i]? = some (w.query.clauseAt p.settings.positions w.floor) := by
  by_cases rule : i < w.rules.length
  · rw [List.getElem?_append_left rule] at listed
    exact .inl listed
  · rw [List.getElem?_append_right (by omega)] at listed
    have last : i - w.rules.length = 0 := by
      have := (List.getElem?_eq_some_iff.mp listed).choose
      rw [List.length_singleton] at this
      omega
    rw [last, List.getElem?_cons_zero, Option.some.injEq] at listed
    obtain rfl : i = w.rules.length := by omega
    exact .inr ⟨listed.symm, runs.last⟩

theorem Awaits.refuted_of_attempt {code : ClauseCode} {k : Heap} (runs : p.Runs w)
    (uncalled : Uncalled w s) (tame : Tame w s b.store.heap (goal :: rest))
    (awaits : p.Awaits goal keys b i) (listed : (w.rules ++ [w.query])[i]? = some code)
    (e : code.attempt fuel goal b.store.heap = .ok (false, k)) :
    p.Refuted goal keys b.store i := by
  rcases runs.code_cases listed with rule | ⟨rfl, found⟩
  · have fails := tame.safe.outcome_of_attempt p.settings.positions rule
      (runs.rule_usable rule) tame.head.term e
    exact ⟨_, runs.clause i code rule, fun _ => ⟨fuel, fails⟩⟩
  · refine ⟨_, found, fun admitted => ?_⟩
    have refused := tame.refused uncalled runs.queryUsable p.settings.positions_pos awaits.exact
    rw [ClauseCode.clauseAt, refused] at admitted
    cases admitted

/-- The branches that a successful attempt leads to. -/
theorem Awaits.attempted {code : ClauseCode} {k : Heap} (runs : p.Runs w)
    (uncalled : Uncalled w s) (atop : p.Over below b) (goals : b.point.goals = goal :: rest)
    (tame : Tame w s b.store.heap (goal :: rest)) (awaits : p.Awaits goal keys b i)
    (queryHead : Cell) (listed : (w.rules ++ [w.query])[i]? = some code)
    (e : code.attempt fuel goal b.store.heap = .ok (true, k)) :
    ∃ left u r, u.heap = k ∧ p.Unfolds queryHead b r left u ∧
      b.point.hasClauses = true ∧ left.goals = goal :: rest ∧
      p.Awaits goal keys ⟨left, b.store⟩ (i + 1) ∧
      Tame w s k (code.body.map (·.relocate b.store.heap.top) ++ rest) ∧
      r = if (code.body.map (·.relocate b.store.heap.top) ++ rest).isEmpty then
          .answered ⟨queryHead, b.store.trail.mark, b.store.heap.top⟩
        else .advanced (.fresh (code.head.relocate b.store.heap.top) b.store.heap.top
          (code.body.map (·.relocate b.store.heap.top) ++ rest) b.store.trail.mark
          p.clauses.size) := by
  rcases runs.code_cases listed with rule | ⟨rfl, -⟩
  · have usable := runs.rule_usable rule
    have term := tame.head.term
    obtain ⟨u, same, resolves⟩ := tame.safe.outcome_of_attempt
      p.settings.positions rule usable term e
    have found := runs.clause i code rule
    have admitted := tame.safe.admits usable term tame.head.tag awaits.exact e
    obtain ⟨before, ids, used, later⟩ :=
      awaits.use queryHead goals found admitted resolves
    refine ⟨_, u, _, same, used.unfolds runs.placed atop, used.hasClauses atop, goals, later,
      tame.attempted uncalled usable (List.mem_append_left _ (List.mem_of_getElem? rule)) e, ?_⟩
    have le := tame.safe.base_le rule
    unfold resolution
    dsimp only
    have empty : (code.body.map (·.relocate b.store.heap.top) ++ rest).isEmpty =
        ((code.body.map (·.relocate b.store.heap.top)).isEmpty && rest.isEmpty) := by
      cases code.body <;> rfl
    rw [body_relocate le, head_relocate le, empty]
  · exact absurd e (tame.not_query uncalled runs.queryUsable)

theorem hasGoals_of_goals (goals : b.point.goals = goal :: rest) : b.point.hasGoals = true := by
  rw [ChoicePoint.hasGoals, goals]
  rfl

/-- Where the goals are resolved, the machine follows the reference. -/
def FollowsSearch (p : Program) (w : Codes) (s : Nat) (queryHead : Cell) (floor : Store)
    (fuel : Nat) : Prop :=
  ∀ (bs : List Branch) (head : Cell) (base mark : Nat) (goals : List Cell) (u : Store),
    goals ≠ [] → p.Over (current floor bs) ⟨.fresh head base goals mark p.clauses.size, u⟩ →
    Tame w s u.heap goals →
    p.Follows queryHead floor (⟨.fresh head base goals mark p.clauses.size, u⟩ :: bs)
      (Reference.search (w.rules ++ [w.query]) p.symbols queryHead fuel goals u.heap) bs

/-- The machine follows the reference through the codes from position `i` on. -/
theorem follows_tryCodes (runs : p.Runs w) (uncalled : Uncalled w s) {more : Nat}
    (deeper : p.FollowsSearch w s queryHead floor fuel) {done : List ClauseCode}
    (split : w.rules ++ [w.query] = done ++ codes) (atop : p.Over (current floor bs) b)
    (goals : b.point.goals = goal :: rest) (tame : Tame w s b.store.heap (goal :: rest))
    (awaits : p.Awaits goal keys b done.length) :
    p.Follows queryHead floor (b :: bs)
      (Reference.tryCodes (Reference.search (w.rules ++ [w.query]) p.symbols queryHead fuel)
        more goal rest b.store.heap codes) bs := by
  have busy := hasGoals_of_goals goals
  induction codes generalizing done b with
  | nil =>
    have all : done.length = p.clauses.size := by
      rw [runs.size, ← List.append_nil done, ← split, List.length_append, List.length_singleton]
    rw [all] at awaits
    exact .of_walk (.move (.dropped busy (awaits.spent runs.placed atop goals)) .done)
  | cons code codes ih =>
    have listed : (w.rules ++ [w.query])[done.length]? = some code := by
      rw [split, List.getElem?_append_right (Nat.le_refl _), Nat.sub_self,
        List.getElem?_cons_zero]
    have next : w.rules ++ [w.query] = (done ++ [code]) ++ codes := by
      rw [split, List.append_assoc]
      rfl
    have length : (done ++ [code]).length = done.length + 1 := by
      rw [List.length_append, List.length_singleton]
    unfold Reference.tryCodes
    split
    · exact .stopped ..
    · next e =>
      have refuted := awaits.refuted_of_attempt runs uncalled tame listed e
      exact ih next atop goals tame (length ▸ awaits.skip refuted) busy
    · next k e =>
      obtain ⟨left, u, r, rfl, turn, clauses, goals', later, tame', result⟩ :=
        awaits.attempted runs uncalled atop goals tame queryHead listed e
      have atop' := atop.leaving runs.placed busy turn
      have others := ih (b := ⟨left, b.store⟩) next atop' goals' tame (length ▸ later)
        (hasGoals_of_goals (b := ⟨left, b.store⟩) goals')
      cases empty : code.body.map (·.relocate b.store.heap.top) ++ rest with
      | nil =>
        rw [empty] at result
        subst result
        unfold Reference.search Reference.answer
        split
        · next x read =>
          exact (Follows.of_walk (.move (.answered busy clauses turn read) .done)).append others
        · exact .stopped ..
      | cons g gs =>
        rw [empty] at result tame'
        subst result
        have below := atop.next runs.placed busy turn
        have descent := deeper (⟨left, b.store⟩ :: bs) _ _ _ _ u (List.cons_ne_nil g gs) below
          tame'
        exact (descent.cons (.descended busy clauses turn)).append others

/-- The machine follows the reference down from every branch. -/
theorem followsSearch (runs : p.Runs w) (uncalled : Uncalled w s) (indexed : p.Indexed)
    (fuel : Nat) : p.FollowsSearch w s queryHead floor fuel := by
  induction fuel with
  | zero =>
    intro bs head base mark goals u some atop tame
    cases goals with
    | nil => exact absurd rfl some
    | cons goal rest => exact .stopped ..
  | succ fuel ih =>
    intro bs head base mark goals u some atop tame
    cases goals with
    | nil => exact absurd rfl some
    | cons goal rest =>
      obtain ⟨keys, exact⟩ := Keys.exists_ofRef tame.safe.closed tame.head.term tame.head.tag
        p.settings.positions
      have split : w.rules ++ [w.query] = [] ++ (w.rules ++ [w.query]) := rfl
      exact follows_tryCodes runs uncalled ih split atop rfl tame (.fresh indexed exact)

end Program

namespace Machine.LoadedFrom

variable {m : Machine} {settings : Settings} {t : Symbols} {rules : List ClauseCode}
  {query : ClauseCode} {s : Nat}

theorem queryHead_relocate (loaded : m.LoadedFrom settings (rules ++ [query]) t) :
    m.queryHead = query.head.relocate (rules.map (·.size)).sum := by
  rw [loaded.queryHead, loaded.runs.1.query]
  rfl

theorem reference_run (loaded : m.LoadedFrom settings (rules ++ [query]) t) (fuel : Nat) :
    Reference.run (rules ++ [query]) t fuel =
      Reference.search (rules ++ [query]) m.program.symbols m.queryHead fuel
        m.program.query.body m.store.heap := by
  have stored : Heap.empty.pushAll (imageFrom 0 (rules ++ [query])) = .ok m.store.heap := by
    rw [Heap.pushAll_eq_ok, loaded.image]
    rfl
  have base : m.store.heap.top - query.size = (rules.map (·.size)).sum := by
    rw [← loaded.static, loaded.runs.1.static]
    exact Nat.add_sub_cancel ..
  have body : m.program.query.body = query.body.map (·.relocate (rules.map (·.size)).sum) := by
    rw [loaded.runs.1.query]
    rfl
  rw [Reference.run, List.getLast?_concat, stored]
  dsimp only
  rw [base, loaded.symbols, loaded.queryHead_relocate, body]

/-- The loaded machine follows the reference to the end. -/
theorem follows (loaded : m.LoadedFrom settings (rules ++ [query]) t)
    (uncalled : Uncalled ⟨rules, query, t.count⟩ s) (fuel : Nat) :
    m.program.Follows m.queryHead m.store [m.start]
      (Reference.run (rules ++ [query]) t fuel) [] := by
  rw [loaded.reference_run]
  have tame := loaded.tame uncalled
  cases body : m.program.query.body with
  | nil =>
    have barren : m.start.point.hasGoals = false := by
      rw [ChoicePoint.hasGoals, Machine.start, ChoicePoint.fresh, body]
      rfl
    unfold Reference.search Reference.answer
    split
    · next x read =>
      rw [loaded.queryHead] at read
      have move : m.program.Move m.queryHead m.store [m.start] [x] [] := .barren barren read
      exact .of_walk (.move move .done)
    · exact .stopped ..
  | cons goal rest =>
    rw [body] at tame
    have start := loaded.stacked.1
    unfold Machine.start at start ⊢
    rw [body] at start ⊢
    exact Program.followsSearch loaded.runs.1 uncalled loaded.indexed fuel [] _ _ _ _ _
      (List.cons_ne_nil goal rest) start tame

end Machine.LoadedFrom

/-- As long as its query is not called, a program answers what the reference
yields: its first answers are the first of the reference, and when the reference is
through nothing more is answered. -/
theorem Machine.asks_of_reference {settings : Settings} {text : String} {ss : List Sentence}
    {codes : List ClauseCode} {t : Symbols} {m : Machine} (read : readProgram text = .ok ss)
    (uncalled : queryUncalled ss = true) (linked : linkAll {} ss = .ok (codes, t))
    (e : ofText settings text = (.ok (.ok m) : Except Halt (Except LoadError Machine)))
    (fuel : Nat) :
    (∀ count, count ≤ (Reference.run codes t fuel).answers.length → ∃ work n, ∀ more,
      work ≤ more → m.asks more count =
        .ok (((Reference.run codes t fuel).answers.take count).map some, n)) ∧
    ((Reference.run codes t fuel).stop = none → ∀ count, ∃ work n, ∀ more, work ≤ more →
      m.asks more ((Reference.run codes t fuel).answers.length + count) =
        .ok ((Reference.run codes t fuel).answers.map some ++ List.replicate count none, n)) := by
  obtain ⟨rules, query, t', s, linked', -, loaded, clear⟩ := exists_uncalled read uncalled e
  obtain ⟨rfl, rfl⟩ := Prod.mk.inj (Except.ok.inj (linked.symm.trans linked'))
  have follows := loaded.follows clear fuel
  have placed := loaded.placed
  constructor
  · intro count le
    obtain ⟨bs', walk⟩ := follows.answers
    obtain ⟨mid, asked, -⟩ := walk.asked
    obtain ⟨bs, first⟩ := asked.take count
    obtain ⟨work, enough⟩ := first.asks placed loaded.stacked
    rw [← loaded.resting, List.length_take, List.length_map, Nat.min_eq_left le,
      ← List.map_take] at enough
    exact ⟨work, _, enough⟩
  · intro complete count
    obtain ⟨bs', asked⟩ := (follows.through complete).asked_all count
    obtain ⟨work, enough⟩ := asked.asks placed loaded.stacked
    rw [← loaded.resting, List.length_append, List.length_map, List.length_replicate] at enough
    exact ⟨work, _, enough⟩

/-- Two facts are answered in their order, and then nothing more is. -/
theorem Machine.asks_of_reference_facts :
    ∃ m work n, ofText {} "p a .\np b .\ngo X if p X ." =
        (.ok (.ok m) : Except Halt (Except LoadError Machine)) ∧
      ∀ more, work ≤ more → m.asks more 3 = .ok ([some (.array [.label "go", .label "a"]),
        some (.array [.label "go", .label "b"]), none], n) := by
  have loads : (ofText {} "p a .\np b .\ngo X if p X ." :
      Except Halt (Except LoadError Machine)).toOption.any (fun r =>
        r.toOption.any fun _ => true) = true := by decide +kernel
  have reads : (readProgram "p a .\np b .\ngo X if p X .").toOption.any (fun ss =>
      queryUncalled ss && (linkAll {} ss).toOption.any fun r =>
        (Reference.run r.1 r.2 9).stop.isNone && (Reference.run r.1 r.2 9).answers =
          [.array [.label "go", .label "a"], .array [.label "go", .label "b"]]) = true := by
    decide +kernel
  obtain ⟨m, loaded, -⟩ := exists_loaded loads
  obtain ⟨ss, read, checked⟩ := exists_ok_of_any reads
  obtain ⟨uncalled, links⟩ := Bool.and_eq_true_iff.mp checked
  obtain ⟨⟨codes, t⟩, linked, checked⟩ := exists_ok_of_any links
  simp only [Bool.and_eq_true, Option.isNone_iff_eq_none, decide_eq_true_eq] at checked
  obtain ⟨stop, answers⟩ := checked
  obtain ⟨work, n, asked⟩ := (asks_of_reference read uncalled linked loaded 9).2 stop 1
  rw [answers] at asked
  exact ⟨m, work, n, loaded, asked⟩

end HornMachine
