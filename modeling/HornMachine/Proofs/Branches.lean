import HornMachine.Proofs.Scanning

/-!
# Branches: a search without undoing

A branch is a choice point together with the store in which its first goal is
tried. A stack of branches needs no trail: when the top branch is dropped, the
store of the one below it is at hand. `Explored` describes a search this way.

The machine keeps one store and rewinds it. Every choice point records the top
and the mark of the store below it, and the store of its branch extends that
one, so rewinding arrives at exactly the store the branch below was left with.
Hence a search of the machine and an exploration of its branches come to the
same, whatever the order of successes and failures.
-/
namespace HornMachine

/-- A choice point and the store in which its first goal is tried. -/
structure Branch where
  point : ChoicePoint
  store : Store

/-- The store in force on top of a stack of branches. -/
def current (floor : Store) : List Branch → Store
  | [] => floor
  | b :: _ => b.store

@[simp] theorem current_nil (floor : Store) : current floor [] = floor := rfl

@[simp] theorem current_cons (floor : Store) (b : Branch) (bs : List Branch) :
    current floor (b :: bs) = b.store := rfl

namespace Program

/-- The clauses to be tried for a goal with the keys `keys`. -/
def candidatesFor (p : Program) (keys : Keys) : Candidates :=
  match p.index with
  | some index => .only (index.candidates keys).toArray
  | none => .all p.clauses.size

/-- The choice point once the keys of its first goal are known. -/
def keyed (p : Program) (keys : Keys) (point : ChoicePoint) : ChoicePoint :=
  { point with keys := some keys, candidates := p.candidatesFor keys }

/-- What a choice point remembers about its first goal is still true. -/
structure Aligned (p : Program) (b : Branch) : Prop where
  within : b.point.cursor ≤ b.point.candidates.size
  unkeyed : b.point.keys = none →
    b.point.cursor = 0 ∧ b.point.candidates = .all p.clauses.size
  keyed : ∀ keys goal rest, b.point.keys = some keys → b.point.goals = goal :: rest →
    Keys.ofRef b.store.heap goal p.settings.positions = .ok keys ∧
      b.point.candidates = p.candidatesFor keys

theorem Aligned.fresh (p : Program) (head : Cell) (base : Nat) (goals : List Cell) (mark : Nat)
    (u : Store) : p.Aligned ⟨.fresh head base goals mark p.clauses.size, u⟩ where
  within := Nat.zero_le _
  unkeyed _ := ⟨rfl, rfl⟩
  keyed _ _ _ e _ := by cases e

theorem Aligned.keyed_self {p : Program} {b : Branch} {goal : Cell} {rest : List Cell}
    {keys : Keys} (aligned : p.Aligned b) (goals : b.point.goals = goal :: rest)
    (known : b.point.keys = some keys) : p.keyed keys b.point = b.point := by
  unfold Program.keyed
  rw [← known, ← (aligned.keyed keys goal rest known goals).2]

theorem prepare_eq_ok {p : Program} {b : Branch} {goal : Cell} {rest : List Cell}
    {keys : Keys} {point : ChoicePoint} (aligned : p.Aligned b)
    (goals : b.point.goals = goal :: rest) :
    p.prepare b.store.heap goal b.point = .ok (keys, point) ↔
      Keys.ofRef b.store.heap goal p.settings.positions = .ok keys ∧
        point = p.keyed keys b.point := by
  unfold prepare
  cases known : b.point.keys with
  | some K =>
    have exact := (aligned.keyed K goal rest known goals).1
    have same := aligned.keyed_self goals known
    simp only [exact, Except.ok.injEq, Prod.mk.injEq]
    constructor
    · rintro ⟨rfl, rfl⟩
      exact ⟨rfl, same.symm⟩
    · rintro ⟨rfl, rfl⟩
      exact ⟨rfl, same.symm⟩
  | none =>
    have all := (aligned.unkeyed known).2
    simp only [Halt.bind_eq_ok, Halt.pure_eq_ok, Prod.mk.injEq]
    unfold Program.keyed candidatesFor
    rw [all]
    constructor
    · rintro ⟨K, exact, rfl, rfl⟩
      exact ⟨exact, rfl⟩
    · rintro ⟨exact, rfl⟩
      exact ⟨keys, exact, rfl, rfl⟩

theorem Aligned.keyed_within {p : Program} {b : Branch} {goal : Cell} {rest : List Cell}
    {keys : Keys} (aligned : p.Aligned b) (goals : b.point.goals = goal :: rest)
    (exact : Keys.ofRef b.store.heap goal p.settings.positions = .ok keys) :
    (p.keyed keys b.point).cursor ≤ (p.keyed keys b.point).candidates.size := by
  unfold Program.keyed
  cases known : b.point.keys with
  | none => simp [(aligned.unkeyed known).1]
  | some K =>
    obtain ⟨exact', candidates⟩ := aligned.keyed K goal rest known goals
    rw [exact, Except.ok.injEq] at exact'
    subst exact'
    exact candidates ▸ aligned.within

theorem Aligned.leaving {p : Program} {b : Branch} {goal : Cell} {rest : List Cell}
    {keys : Keys} (goals : b.point.goals = goal :: rest)
    (exact : Keys.ofRef b.store.heap goal p.settings.positions = .ok keys) (ids : List Nat) :
    p.Aligned ⟨(p.keyed keys b.point).leaving ids, b.store⟩ where
  within := Nat.sub_le _ _
  unkeyed e := by cases e
  keyed := by
    intro K g gs known goals'
    cases known
    have same : b.point.goals = g :: gs := goals'
    rw [goals, List.cons.injEq] at same
    obtain ⟨rfl, rfl⟩ := same
    exact ⟨exact, rfl⟩

/-- Unfolding a branch is a scan of the candidates it has left. -/
theorem unfold_eq_ok {p : Program} {fuel : Nat} {queryHead goal : Cell} {rest : List Cell}
    {b : Branch} {r : Resolution} {left : ChoicePoint} {u : Store} (aligned : p.Aligned b)
    (goals : b.point.goals = goal :: rest) :
    p.unfold fuel queryHead b.point b.store = .ok (r, left, u) ↔
      ∃ keys ids, Keys.ofRef b.store.heap goal p.settings.positions = .ok keys ∧
        p.scan fuel queryHead goal rest keys (p.keyed keys b.point).pending b.store =
          .ok (r, ids, u) ∧
        left = (p.keyed keys b.point).leaving ids := by
  simp only [unfold, goals, Halt.bind_eq_ok]
  constructor
  · rintro ⟨⟨keys, point⟩, prepared, e⟩
    obtain ⟨exact, rfl⟩ := (prepare_eq_ok aligned goals).mp prepared
    dsimp only at e
    rw [tryCandidates_eq_scan (aligned.keyed_within goals exact)] at e
    obtain ⟨⟨r', ids, u'⟩, scanned, e⟩ := Halt.bind_eq_ok.mp e
    cases e
    exact ⟨keys, ids, exact, scanned, rfl⟩
  · rintro ⟨keys, ids, exact, scanned, rfl⟩
    refine ⟨_, (prepare_eq_ok aligned goals).mpr ⟨exact, rfl⟩, ?_⟩
    dsimp only
    rw [tryCandidates_eq_scan (aligned.keyed_within goals exact), scanned, Halt.ok_bind]

theorem unfold_mono {p : Program} {fuel more : Nat} {queryHead : Cell} {point left : ChoicePoint}
    {t u : Store} {r : Resolution} (le : fuel ≤ more)
    (e : p.unfold fuel queryHead point t = .ok (r, left, u)) :
    p.unfold more queryHead point t = .ok (r, left, u) := by
  unfold unfold at e ⊢
  cases goals : point.goals with
  | nil =>
    rw [goals] at e
    exact e
  | cons goal rest =>
    simp only [goals] at e ⊢
    obtain ⟨⟨keys, q⟩, prepared, e⟩ := Halt.bind_eq_ok.mp e
    exact Halt.bind_eq_ok.mpr ⟨_, prepared, tryCandidates_mono le e⟩

theorem unfold_unique {p : Program} {fuel fuel' : Nat} {queryHead : Cell} {point : ChoicePoint}
    {t : Store} {x y : Resolution × ChoicePoint × Store}
    (e : p.unfold fuel queryHead point t = .ok x)
    (e' : p.unfold fuel' queryHead point t = .ok y) : x = y :=
  Halt.unique_of_mono (f := (p.unfold · queryHead point t)) unfold_mono e e'

/-- What a search finds, it finds with more fuel. -/
theorem search_mono {p : Program} {fuel more : Nat} {queryHead : Cell}
    {stack : List ChoicePoint} {t : Store} {x : Option Answer × List ChoicePoint × Store}
    (le : fuel ≤ more) (e : p.search queryHead fuel stack t = .ok x) :
    p.search queryHead more stack t = .ok x := by
  induction fuel generalizing more stack t with
  | zero =>
    cases stack with
    | nil => cases more <;> exact e
    | cons point stack => cases e
  | succ fuel ih =>
    obtain ⟨more, rfl⟩ := Nat.exists_eq_add_of_le' (Nat.le_of_add_left_le le)
    cases stack with
    | nil => exact e
    | cons point stack =>
      have le : fuel ≤ more := Nat.le_of_succ_le_succ le
      unfold search at e ⊢
      split at e
      · next barren => rwa [if_pos barren]
      · next goals =>
        rw [if_neg goals]
        split at e
        · next tried =>
          rw [if_pos tried]
          obtain ⟨s, restored, e⟩ := Halt.bind_eq_ok.mp e
          exact Halt.bind_eq_ok.mpr ⟨s, restored, ih le e⟩
        · next clauses =>
          rw [if_neg clauses]
          obtain ⟨⟨r, left, u⟩, unfolded, e⟩ := Halt.bind_eq_ok.mp e
          refine Halt.bind_eq_ok.mpr ⟨_, unfold_mono le unfolded, ?_⟩
          cases r with
          | exhausted =>
            obtain ⟨s, restored, e⟩ := Halt.bind_eq_ok.mp e
            exact Halt.bind_eq_ok.mpr ⟨s, restored, ih le e⟩
          | advanced next => exact ih le e
          | answered a => exact e

/-- A branch over the store `below`. -/
structure Over (p : Program) (below : Store) (b : Branch) : Prop where
  base : b.point.base = below.heap.top
  mark : b.point.trailMark = below.trail.mark
  extends' : below.Extends b.store
  rooted : b.store.heap.Rooted
  static : p.staticTop ≤ b.store.heap.top
  aligned : p.Aligned b

/-- Every branch lies over the store of the next one. -/
def Stacked (p : Program) (floor : Store) : List Branch → Prop
  | [] => True
  | b :: bs => p.Over (current floor bs) b ∧ p.Stacked floor bs

/-- The first goal of a branch is resolved, or its candidates are used up. -/
def Unfolds (p : Program) (queryHead : Cell) (b : Branch) (r : Resolution) (left : ChoicePoint)
    (u : Store) : Prop :=
  ∃ fuel, p.unfold fuel queryHead b.point b.store = .ok (r, left, u)

/-- A branch with goals that leads nowhere any more. -/
def Spent (p : Program) (queryHead : Cell) (b : Branch) : Prop :=
  b.point.hasClauses = false ∨ ∃ left u, p.Unfolds queryHead b .exhausted left u

/-- A search of the branches up to the next answer, which comes with the store
that holds its bindings. -/
inductive Explored (p : Program) (queryHead : Cell) (floor : Store) :
    List Branch → Option (Answer × Store) → List Branch → Prop
  | finished : Explored p queryHead floor [] none []
  | barren {b : Branch} {bs : List Branch} : b.point.hasGoals = false →
      Explored p queryHead floor (b :: bs)
        (some (⟨b.point.head, b.point.trailMark, b.point.base⟩, current floor bs)) bs
  | dropped {b : Branch} {bs bs' : List Branch} {o : Option (Answer × Store)} :
      b.point.hasGoals = true → p.Spent queryHead b →
      Explored p queryHead floor bs o bs' → Explored p queryHead floor (b :: bs) o bs'
  | descended {b : Branch} {bs bs' : List Branch} {o : Option (Answer × Store)}
      {next left : ChoicePoint} {u : Store} :
      b.point.hasGoals = true → b.point.hasClauses = true →
      p.Unfolds queryHead b (.advanced next) left u →
      Explored p queryHead floor (⟨next, u⟩ :: ⟨left, b.store⟩ :: bs) o bs' →
      Explored p queryHead floor (b :: bs) o bs'
  | answered {b : Branch} {bs : List Branch} {a : Answer} {left : ChoicePoint} {u : Store} :
      b.point.hasGoals = true → b.point.hasClauses = true →
      p.Unfolds queryHead b (.answered a) left u →
      Explored p queryHead floor (b :: bs) (some (a, u)) (⟨left, b.store⟩ :: bs)

variable {p : Program} {queryHead : Cell} {floor below : Store} {b : Branch}
  {bs bs' : List Branch} {o : Option (Answer × Store)} {r : Resolution} {left : ChoicePoint}
  {u : Store}

theorem exists_goal (some : b.point.hasGoals = true) :
    ∃ goal rest, b.point.goals = goal :: rest := by
  cases goals : b.point.goals with
  | nil => simp [ChoicePoint.hasGoals, goals] at some
  | cons goal rest => exact ⟨goal, rest, rfl⟩

theorem Unfolds.scanned (placed : p.Placed) (atop : p.Over below b)
    (some : b.point.hasGoals = true) (e : p.Unfolds queryHead b r left u) :
    ∃ goal rest keys ids, b.point.goals = goal :: rest ∧
      Keys.ofRef b.store.heap goal p.settings.positions = .ok keys ∧
      p.Scanned queryHead goal rest keys b.store (p.keyed keys b.point).pending r ids u ∧
      left = (p.keyed keys b.point).leaving ids := by
  obtain ⟨fuel, e⟩ := e
  obtain ⟨goal, rest, goals⟩ := exists_goal some
  obtain ⟨keys, ids, exact, scanned, left⟩ := (unfold_eq_ok atop.aligned goals).mp e
  exact ⟨goal, rest, keys, ids, goals, exact, .of_scan placed atop.static atop.rooted scanned,
    left⟩

theorem Over.leaving (placed : p.Placed) (atop : p.Over below b)
    (some : b.point.hasGoals = true) (e : p.Unfolds queryHead b r left u) :
    p.Over below ⟨left, b.store⟩ := by
  obtain ⟨goal, rest, keys, ids, goals, exact, -, rfl⟩ := e.scanned placed atop some
  exact ⟨atop.base, atop.mark, atop.extends', atop.rooted, atop.static,
    Aligned.leaving goals exact ids⟩

theorem Unfolds.extends (placed : p.Placed) (atop : p.Over below b)
    (some : b.point.hasGoals = true) (e : p.Unfolds queryHead b r left u) :
    b.store.Extends u ∧ u.heap.Rooted := by
  obtain ⟨goal, rest, keys, ids, -, -, scanned, -⟩ := e.scanned placed atop some
  cases scanned with
  | exhausted _ => exact ⟨.refl _, atop.rooted⟩
  | used _ _ found _ resolves =>
    exact resolves.extends ((placed _ _ found).mono atop.static) atop.rooted

theorem Over.next {next : ChoicePoint} (placed : p.Placed) (atop : p.Over below b)
    (some : b.point.hasGoals = true) (e : p.Unfolds queryHead b (.advanced next) left u) :
    p.Over b.store ⟨next, u⟩ := by
  have grown := e.extends placed atop some
  obtain ⟨goal, rest, keys, ids, -, -, scanned, -⟩ := e.scanned placed atop some
  generalize advanced : Resolution.advanced next = r at scanned
  cases scanned with
  | exhausted _ => cases advanced
  | used _ _ found _ resolves =>
    obtain ⟨-, rfl⟩ := resolution_eq_advanced.mp advanced.symm
    exact ⟨rfl, rfl, grown.1, grown.2, atop.static.trans grown.1.top_le, .fresh ..⟩

theorem Stacked.leaving (placed : p.Placed) (stacked : p.Stacked floor (b :: bs))
    (some : b.point.hasGoals = true) (e : p.Unfolds queryHead b r left u) :
    p.Stacked floor (⟨left, b.store⟩ :: bs) :=
  ⟨stacked.1.leaving placed some e, stacked.2⟩

theorem Stacked.descend {next : ChoicePoint} (placed : p.Placed)
    (stacked : p.Stacked floor (b :: bs)) (some : b.point.hasGoals = true)
    (e : p.Unfolds queryHead b (.advanced next) left u) :
    p.Stacked floor (⟨next, u⟩ :: ⟨left, b.store⟩ :: bs) := by
  have above := stacked.1.next placed some e
  exact ⟨above, stacked.leaving placed some e⟩

/-- An answer records where the store stood before the clause that completed it. -/
theorem Unfolds.answer {a : Answer} (placed : p.Placed) (atop : p.Over below b)
    (some : b.point.hasGoals = true) (e : p.Unfolds queryHead b (.answered a) left u) :
    a = ⟨queryHead, b.store.trail.mark, b.store.heap.top⟩ := by
  obtain ⟨goal, rest, keys, ids, -, -, scanned, -⟩ := e.scanned placed atop some
  generalize answered : Resolution.answered a = r at scanned
  cases scanned with
  | exhausted _ => cases answered
  | used _ _ _ _ _ => exact (resolution_eq_answered.mp answered.symm).2

theorem Unfolds.exhausted (placed : p.Placed) (atop : p.Over below b)
    (some : b.point.hasGoals = true) (e : p.Unfolds queryHead b .exhausted left u) :
    u = b.store := by
  obtain ⟨goal, rest, keys, ids, -, -, scanned, -⟩ := e.scanned placed atop some
  generalize ended : Resolution.exhausted = r at scanned
  cases scanned with
  | exhausted _ => rfl
  | used _ _ _ _ _ => exact (resolution_ne_exhausted _ _ _ _ _ ended.symm).elim

theorem pending_keyed_leaving {keys : Keys} {point : ChoicePoint} {ids : List Nat}
    (suffix : ids <:+ (p.keyed keys point).pending) :
    (p.keyed keys ((p.keyed keys point).leaving ids)).pending = ids :=
  ChoicePoint.pending_leaving (q := p.keyed keys point) suffix

/-- A turn that used the clause `c`, numbered `id`, on the goal `goal`. -/
structure Used (p : Program) (queryHead : Cell) (b : Branch) (r : Resolution)
    (left : ChoicePoint) (u : Store) (goal : Cell) (rest : List Cell) (keys : Keys)
    (before : List Nat) (id : Nat) (ids : List Nat) (c : Clause) : Prop where
  goals : b.point.goals = goal :: rest
  exact : Keys.ofRef b.store.heap goal p.settings.positions = .ok keys
  pending : (p.keyed keys b.point).pending = before ++ id :: ids
  skipped : ∀ i ∈ before, p.Refuted goal keys b.store i
  found : p.clauses[id]? = some c
  admitted : keys.admits c.keys = true
  resolves : ∃ fuel, c.Resolves fuel goal b.store u
  result : r = p.resolution queryHead rest c b.store
  left : left = (p.keyed keys b.point).leaving ids

theorem Unfolds.used (placed : p.Placed) (atop : p.Over below b)
    (some : b.point.hasGoals = true) (e : p.Unfolds queryHead b r left u)
    (on : r ≠ .exhausted) :
    ∃ goal rest keys before id ids c,
      p.Used queryHead b r left u goal rest keys before id ids c := by
  obtain ⟨goal, rest, keys, ids, goals, exact, scanned, rfl⟩ := e.scanned placed atop some
  cases scanned with
  | exhausted _ => exact absurd rfl on
  | used pending skipped found admitted resolves =>
    exact ⟨goal, rest, keys, _, _, ids, _, goals, exact, pending, skipped, found, admitted,
      ⟨_, resolves⟩, rfl, rfl⟩

theorem Used.unfolds {goal : Cell} {rest : List Cell} {keys : Keys} {before ids : List Nat}
    {id : Nat} {c : Clause} (placed : p.Placed) (atop : p.Over below b)
    (used : p.Used queryHead b r left u goal rest keys before id ids c) :
    p.Unfolds queryHead b r left u := by
  obtain ⟨work, resolves⟩ := used.resolves
  have scanned : p.Scanned queryHead goal rest keys b.store (p.keyed keys b.point).pending
      (p.resolution queryHead rest c b.store) ids u :=
    .used used.pending used.skipped used.found used.admitted resolves
  obtain ⟨fuel, ended⟩ := scanned.exists_scan placed atop.static atop.rooted
  refine ⟨fuel, (unfold_eq_ok atop.aligned used.goals).mpr
    ⟨keys, ids, used.exact, ?_, used.left⟩⟩
  rw [used.result]
  exact ended

theorem Used.suffix {goal : Cell} {rest : List Cell} {keys : Keys} {before ids : List Nat}
    {id : Nat} {c : Clause} (used : p.Used queryHead b r left u goal rest keys before id ids c) :
    ids <:+ (p.keyed keys b.point).pending :=
  ⟨before ++ [id], by rw [used.pending, List.append_assoc]; rfl⟩

theorem Used.pending_left {goal : Cell} {rest : List Cell} {keys : Keys}
    {before ids : List Nat} {id : Nat} {c : Clause}
    (used : p.Used queryHead b r left u goal rest keys before id ids c) :
    (p.keyed keys left).pending = ids := by
  rw [used.left, pending_keyed_leaving used.suffix]

theorem Used.hasClauses {goal : Cell} {rest : List Cell} {keys : Keys} {before ids : List Nat}
    {id : Nat} {c : Clause} (atop : p.Over below b)
    (used : p.Used queryHead b r left u goal rest keys before id ids c) :
    b.point.hasClauses = true := by
  cases known : b.point.keys with
  | none =>
    obtain ⟨cursor, candidates⟩ := atop.aligned.unkeyed known
    have inside := (Array.getElem?_eq_some_iff.mp used.found).choose
    rw [ChoicePoint.hasClauses, cursor, candidates, decide_eq_true_eq]
    exact Nat.zero_lt_of_lt inside
  | some keys' =>
    have exact := (atop.aligned.keyed keys' goal rest known used.goals).1
    obtain rfl : keys = keys' := Except.ok.inj (used.exact.symm.trans exact)
    have pending := used.pending
    rw [atop.aligned.keyed_self used.goals known] at pending
    rw [ChoicePoint.hasClauses_iff, pending]
    simp

/-- A spent branch has refuted the candidates it had left. -/
theorem Spent.refuted (placed : p.Placed) (clauses : 0 < p.clauses.size)
    (atop : p.Over below b) (some : b.point.hasGoals = true) (spent : p.Spent queryHead b) :
    ∃ goal rest keys, b.point.goals = goal :: rest ∧
      Keys.ofRef b.store.heap goal p.settings.positions = .ok keys ∧
      ∀ id ∈ (p.keyed keys b.point).pending, p.Refuted goal keys b.store id := by
  rcases spent with none | ⟨left, u, turn⟩
  · obtain ⟨goal, rest, goals⟩ := exists_goal some
    cases known : b.point.keys with
    | none =>
      obtain ⟨cursor, candidates⟩ := atop.aligned.unkeyed known
      have full : b.point.cursor < b.point.candidates.size := by
        rw [cursor, candidates]
        exact clauses
      rw [ChoicePoint.hasClauses, decide_eq_false_iff_not] at none
      exact absurd full none
    | some keys =>
      have exact := (atop.aligned.keyed keys goal rest known goals).1
      refine ⟨goal, rest, keys, goals, exact, ?_⟩
      have empty : b.point.pending = [] := by
        by_contra more
        rw [(b.point.hasClauses_iff).mpr more] at none
        cases none
      rw [atop.aligned.keyed_self goals known, empty]
      exact List.forall_mem_nil _
  · obtain ⟨goal, rest, keys, ids, goals, exact, scanned, -⟩ := turn.scanned placed atop some
    refine ⟨goal, rest, keys, goals, exact, ?_⟩
    generalize ended : Resolution.exhausted = r at scanned
    cases scanned with
    | exhausted all => exact all
    | used _ _ _ _ _ => exact (resolution_ne_exhausted _ _ _ _ _ ended.symm).elim

theorem Spent.of_refuted {goal : Cell} {rest : List Cell} {keys : Keys} (placed : p.Placed)
    (atop : p.Over below b) (goals : b.point.goals = goal :: rest)
    (exact : Keys.ofRef b.store.heap goal p.settings.positions = .ok keys)
    (all : ∀ id ∈ (p.keyed keys b.point).pending, p.Refuted goal keys b.store id) :
    p.Spent queryHead b := by
  have scanned : p.Scanned queryHead goal rest keys b.store (p.keyed keys b.point).pending
      .exhausted [] b.store := .exhausted all
  obtain ⟨fuel, ended⟩ := scanned.exists_scan placed atop.static atop.rooted
  exact .inr ⟨_, _, fuel, (unfold_eq_ok atop.aligned goals).mpr ⟨keys, [], exact, ended, rfl⟩⟩

/-! ### The steps of a search -/

section Steps

variable {fuel : Nat} {stack : List ChoicePoint} {point : ChoicePoint} {t : Store}

theorem Over.restore (atop : p.Over below b) :
    b.store.restore b.point.trailMark b.point.base = .ok below := by
  rw [atop.base, atop.mark]
  exact atop.extends'.restore

theorem search_barren (none : point.hasGoals = false)
    (restored : t.restore point.trailMark point.base = .ok below) :
    p.search queryHead (fuel + 1) (point :: stack) t =
      .ok (some ⟨point.head, point.trailMark, point.base⟩, stack, below) := by
  simp only [search, none, Bool.not_false, ↓reduceIte, restored, Halt.ok_bind]
  rfl

theorem search_untried (some : point.hasGoals = true) (none : point.hasClauses = false)
    (restored : t.restore point.trailMark point.base = .ok below) :
    p.search queryHead (fuel + 1) (point :: stack) t = p.search queryHead fuel stack below := by
  simp only [search, some, none, Bool.not_true, Bool.not_false, Bool.false_eq_true, ↓reduceIte,
    restored, Halt.ok_bind]

/-- A search goes on as the turn of its top branch says. -/
def follow (p : Program) (queryHead : Cell) (fuel : Nat) (stack : List ChoicePoint) :
    Resolution × ChoicePoint × Store → Except Halt (Option Answer × List ChoicePoint × Store)
  | (.exhausted, left, u) =>
    u.restore left.trailMark left.base >>= p.search queryHead fuel stack
  | (.advanced next, left, u) => p.search queryHead fuel (next :: left :: stack) u
  | (.answered a, left, u) => .ok (some a, left :: stack, u)

theorem search_turn (some : point.hasGoals = true) (clauses : point.hasClauses = true) :
    p.search queryHead (fuel + 1) (point :: stack) t =
      p.unfold fuel queryHead point t >>= p.follow queryHead fuel stack := by
  simp only [search, some, clauses, Bool.not_true, Bool.false_eq_true, ↓reduceIte]
  refine congrArg _ (funext fun ⟨r, left, u⟩ => ?_)
  cases r <;> rfl

theorem Over.follow_exhausted (placed : p.Placed) (atop : p.Over below b)
    (some : b.point.hasGoals = true) (e : p.Unfolds queryHead b .exhausted left u) :
    p.follow queryHead fuel stack (.exhausted, left, u) = p.search queryHead fuel stack below := by
  have under := atop.leaving placed some e
  rw [follow, e.exhausted placed atop some, under.restore, Halt.ok_bind]

end Steps

/-! ### Searching is exploring -/

/-- What a search of the machine finds is found by exploring its branches. -/
theorem Explored.of_search {fuel : Nat} {stack : List ChoicePoint} {t : Store}
    {a : Option Answer} (placed : p.Placed) (stacked : p.Stacked floor bs)
    (e : p.search queryHead fuel (bs.map (·.point)) (current floor bs) = .ok (a, stack, t)) :
    ∃ o bs', p.Explored queryHead floor bs o bs' ∧ a = o.map (·.1) ∧
      stack = bs'.map (·.point) ∧ t = (o.map (·.2)).getD (current floor bs') := by
  induction fuel generalizing bs with
  | zero =>
    cases bs with
    | nil =>
      cases e
      exact ⟨none, [], .finished, rfl, rfl, rfl⟩
    | cons b bs => cases e
  | succ fuel ih =>
    cases bs with
    | nil =>
      cases e
      exact ⟨none, [], .finished, rfl, rfl, rfl⟩
    | cons b bs =>
      obtain ⟨atop, below⟩ := id stacked
      rw [List.map_cons, current_cons] at e
      cases goals : b.point.hasGoals with
      | false =>
        rw [search_barren goals atop.restore] at e
        cases e
        exact ⟨_, bs, .barren goals, rfl, rfl, rfl⟩
      | true =>
        cases clauses : b.point.hasClauses with
        | false =>
          rw [search_untried goals clauses atop.restore] at e
          obtain ⟨o, bs', explored, rest⟩ := ih below e
          exact ⟨o, bs', .dropped goals (.inl clauses) explored, rest⟩
        | true =>
          rw [search_turn goals clauses] at e
          obtain ⟨⟨r, left, u⟩, unfolded, e⟩ := Halt.bind_eq_ok.mp e
          have turn : p.Unfolds queryHead b r left u := ⟨fuel, unfolded⟩
          cases r with
          | exhausted =>
            rw [atop.follow_exhausted placed goals turn] at e
            obtain ⟨o, bs', explored, rest⟩ := ih below e
            exact ⟨o, bs', .dropped goals (.inr ⟨left, u, turn⟩) explored, rest⟩
          | advanced next =>
            obtain ⟨o, bs', explored, rest⟩ := ih (stacked.descend placed goals turn) e
            exact ⟨o, bs', .descended goals clauses turn explored, rest⟩
          | answered answer =>
            cases e
            exact ⟨_, _, .answered goals clauses turn, rfl, rfl, rfl⟩

/-- With enough fuel a search takes the turn that a branch unfolds to. -/
theorem Unfolds.search (clauses : b.point.hasClauses = true) (some : b.point.hasGoals = true)
    (e : p.Unfolds queryHead b r left u) (stack : List ChoicePoint) :
    ∃ work, ∀ fuel, work ≤ fuel →
      p.search queryHead (fuel + 1) (b.point :: stack) b.store =
        p.follow queryHead fuel stack (r, left, u) := by
  obtain ⟨work, unfolded⟩ := e
  refine ⟨work, fun fuel enough => ?_⟩
  rw [search_turn some clauses, unfold_mono enough unfolded, Halt.ok_bind]

/-- What exploring finds, the machine finds with enough fuel. -/
theorem Explored.search (placed : p.Placed) (stacked : p.Stacked floor bs)
    (e : p.Explored queryHead floor bs o bs') :
    ∃ fuel, ∀ more, fuel ≤ more →
      p.search queryHead more (bs.map (·.point)) (current floor bs) =
        .ok (o.map (·.1), bs'.map (·.point), (o.map (·.2)).getD (current floor bs')) := by
  induction e with
  | finished =>
    refine ⟨0, fun more _ => ?_⟩
    cases more <;> rfl
  | barren goals =>
    refine ⟨1, fun more le => ?_⟩
    obtain ⟨more, rfl⟩ := Nat.exists_eq_add_of_le' le
    exact search_barren goals stacked.1.restore
  | @dropped b bs bs' o goals spent _ ih =>
    obtain ⟨atop, stacked⟩ := stacked
    obtain ⟨fuel, later⟩ := ih stacked
    cases clauses : b.point.hasClauses with
    | false =>
      refine ⟨fuel + 1, fun more le => ?_⟩
      obtain ⟨more, rfl⟩ := Nat.exists_eq_add_of_le' (Nat.le_of_add_left_le le)
      exact (search_untried goals clauses atop.restore).trans (later more (by omega))
    | true =>
      rcases spent with none | ⟨left, u, turn⟩
      · simp [clauses] at none
      obtain ⟨work, turned⟩ := turn.search clauses goals (bs.map (·.point))
      refine ⟨max fuel work + 1, fun more le => ?_⟩
      obtain ⟨more, rfl⟩ := Nat.exists_eq_add_of_le' (Nat.le_of_add_left_le le)
      exact (turned more (by omega)).trans
        ((atop.follow_exhausted placed goals turn).trans (later more (by omega)))
  | @descended b bs bs' o next left u goals clauses turn _ ih =>
    obtain ⟨fuel, later⟩ := ih (stacked.descend placed goals turn)
    obtain ⟨work, turned⟩ := turn.search clauses goals (bs.map (·.point))
    refine ⟨max fuel work + 1, fun more le => ?_⟩
    obtain ⟨more, rfl⟩ := Nat.exists_eq_add_of_le' (Nat.le_of_add_left_le le)
    exact (turned more (by omega)).trans (later more (by omega))
  | @answered b bs a left u goals clauses turn =>
    obtain ⟨work, turned⟩ := turn.search clauses goals (bs.map (·.point))
    refine ⟨work + 1, fun more le => ?_⟩
    obtain ⟨more, rfl⟩ := Nat.exists_eq_add_of_le' (Nat.le_of_add_left_le le)
    exact turned more (by omega)

/-! ### What a whole exploration keeps -/

/-- The stack an exploration leaves is well stacked, and the store of an answer
extends the store on top of it. -/
theorem Explored.stacked (placed : p.Placed) (stacked : p.Stacked floor bs)
    (e : p.Explored queryHead floor bs o bs') :
    p.Stacked floor bs' ∧ ∀ a u, o = some (a, u) →
      a.trailMark = (current floor bs').trail.mark ∧ a.base = (current floor bs').heap.top ∧
        (current floor bs').Extends u := by
  induction e with
  | finished => exact ⟨trivial, nofun⟩
  | barren _ =>
    refine ⟨stacked.2, ?_⟩
    intro a u e
    cases e
    exact ⟨stacked.1.mark, stacked.1.base, .refl _⟩
  | dropped _ _ _ ih => exact ih stacked.2
  | descended goals _ turn _ ih => exact ih (stacked.descend placed goals turn)
  | answered goals _ turn =>
    refine ⟨stacked.leaving placed goals turn, ?_⟩
    intro a u e
    cases e
    have answer := turn.answer placed stacked.1 goals
    subst answer
    exact ⟨rfl, rfl, (turn.extends placed stacked.1 goals).1⟩

theorem Explored.goal_cases (goals : b.point.hasGoals = true)
    (e : p.Explored queryHead floor (b :: bs) o bs') :
    (p.Spent queryHead b ∧ p.Explored queryHead floor bs o bs') ∨
    ∃ r left u, r ≠ .exhausted ∧ p.Unfolds queryHead b r left u ∧
      ((∃ next, r = .advanced next ∧
          p.Explored queryHead floor (⟨next, u⟩ :: ⟨left, b.store⟩ :: bs) o bs') ∨
        ∃ a, r = .answered a ∧ o = some (a, u) ∧ bs' = ⟨left, b.store⟩ :: bs) := by
  cases e with
  | barren none => simp [goals] at none
  | dropped _ spent later => exact .inl ⟨spent, later⟩
  | descended _ _ turn later => exact .inr ⟨.advanced _, _, _, nofun, turn, .inl ⟨_, rfl, later⟩⟩
  | answered _ _ turn => exact .inr ⟨.answered _, _, _, nofun, turn, .inr ⟨_, rfl, rfl, rfl⟩⟩

theorem Explored.nothing_left (e : p.Explored queryHead floor bs o bs') (none : o = none) :
    bs' = [] := by
  induction e with
  | finished => rfl
  | barren _ => cases none
  | dropped _ _ _ ih => exact ih none
  | descended _ _ _ _ ih => exact ih none
  | answered _ _ _ => cases none

/-- What every turn keeps holds of all branches that are left. -/
theorem Explored.forall_branches {I : Branch → Prop}
    (turn : ∀ {b : Branch} {r : Resolution} {left : ChoicePoint} {u : Store}, I b →
      b.point.hasGoals = true → p.Unfolds queryHead b r left u →
      I ⟨left, b.store⟩ ∧ ∀ next, r = .advanced next → I ⟨next, u⟩)
    (start : ∀ b ∈ bs, I b) (e : p.Explored queryHead floor bs o bs') : ∀ b ∈ bs', I b := by
  induction e with
  | finished => exact start
  | barren _ => exact (List.forall_mem_cons.mp start).2
  | dropped _ _ _ ih => exact ih (List.forall_mem_cons.mp start).2
  | descended goals _ unfolded _ ih =>
    obtain ⟨top, rest⟩ := List.forall_mem_cons.mp start
    obtain ⟨kept, next⟩ := turn top goals unfolded
    exact ih (List.forall_mem_cons.mpr ⟨next _ rfl, List.forall_mem_cons.mpr ⟨kept, rest⟩⟩)
  | answered goals _ unfolded =>
    obtain ⟨top, rest⟩ := List.forall_mem_cons.mp start
    exact List.forall_mem_cons.mpr ⟨(turn top goals unfolded).1, rest⟩

/-- What every turn that completes an answer leads to holds of the store of an
answer. -/
theorem Explored.forall_answers {I : Branch → Prop} {P : Store → Prop}
    (turn : ∀ {b : Branch} {r : Resolution} {left : ChoicePoint} {u : Store}, I b →
      b.point.hasGoals = true → p.Unfolds queryHead b r left u →
      I ⟨left, b.store⟩ ∧ ∀ next, r = .advanced next → I ⟨next, u⟩)
    (answered : ∀ {b : Branch} {a : Answer} {left : ChoicePoint} {u : Store}, I b →
      b.point.hasGoals = true → p.Unfolds queryHead b (.answered a) left u → P u)
    (barren : ∀ {b : Branch} (u : Store), I b → b.point.hasGoals = false → P u)
    (start : ∀ b ∈ bs, I b) (e : p.Explored queryHead floor bs o bs') {a : Answer} {u : Store}
    (found : o = some (a, u)) : P u := by
  induction e with
  | finished => cases found
  | barren goals =>
    cases found
    exact barren _ (List.forall_mem_cons.mp start).1 goals
  | dropped _ _ _ ih => exact ih (List.forall_mem_cons.mp start).2 found
  | descended goals _ unfolded _ ih =>
    obtain ⟨top, rest⟩ := List.forall_mem_cons.mp start
    obtain ⟨kept, next⟩ := turn top goals unfolded
    refine ih ?_ found
    exact List.forall_mem_cons.mpr ⟨next _ rfl, List.forall_mem_cons.mpr ⟨kept, rest⟩⟩
  | answered goals _ unfolded =>
    cases found
    exact answered (List.forall_mem_cons.mp start).1 goals unfolded

end Program

end HornMachine
