import HornMachine.Proofs.Resolving
import Mathlib.Logic.Relation

/-!
# A search moment by moment

A search is three loops inside one another: over the choice points, over the
candidates of a goal, and over the pairs of a unification. Here the same search is
a sequence of moments, each one turn of the innermost loop away from the next. So
what holds throughout a search can also be said of one that never returns.

A moment remembers with every choice point its origin, the store in which the copy
of its clause began. The machine keeps no such store, and no turn looks at it.
-/
namespace HornMachine

/-- A choice point and the store in which the copy of its clause began. -/
structure Made where
  point : ChoicePoint
  origin : Store

/-- The first goal of the choice point on top while its candidates are tried. -/
structure Trial where
  goal : Cell
  rest : List Cell
  keys : Keys
  untried : Nat
  top : Made
  below : List Made

/-- A clause that is tried, the store in which its copy began, and the head of the
copy. -/
structure Attempt where
  id : Nat
  clause : Clause
  origin : Store
  head : Cell

namespace Attempt

/-- The distance from the template to the copy. -/
def shift (a : Attempt) : Nat := a.clause.shift a.origin

end Attempt

namespace Trial

/-- The choice points on the stack, the one whose goal is tried on top. -/
def stack (t : Trial) : List Made := t.top :: t.below

/-- The next candidate is the last one tried. -/
def advance (t : Trial) (untried : Nat) : Trial :=
  { t with
    untried
    top := ⟨{ t.top.point with cursor := t.top.point.cursor + 1 }, t.top.origin⟩ }

end Trial

inductive Moment
  /-- The choice point on top is looked at. -/
  | choosing (stack : List Made) (store : Store)
  /-- The next candidate of the first goal is looked at. -/
  | trying (trial : Trial) (store : Store)
  /-- The head of the clause is copied and being unified with the goal. -/
  | unifying (trial : Trial) (attempt : Attempt) (work : List (Cell × Cell)) (store : Store)
  /-- The clause is copied completely, with `body` as its goals. -/
  | resolved (trial : Trial) (attempt : Attempt) (body : List Cell) (store : Store)
  /-- The search returns; an answer comes with the origin of its last clause. -/
  | ended (answer : Option (Answer × Store)) (stack : List Made) (store : Store)

namespace Moment

/-- Take the choice point on top off the stack and undo what was done since. -/
def drop (top : Made) (below : List Made) (store : Store) : Except Halt Moment := do
  return .choosing below (← store.restore top.point.trailMark top.point.base)

/-- Undo an attempt and go on with the next candidate. -/
def retry (trial : Trial) (attempt : Attempt) (store : Store) : Except Halt Moment := do
  return .trying trial
    (← store.restore attempt.origin.trail.mark attempt.origin.heap.top)

def store : Moment → Store
  | choosing _ s | trying _ s | unifying _ _ _ s | resolved _ _ _ s | ended _ _ s => s

def stack : Moment → List Made
  | choosing qs _ | ended _ qs _ => qs
  | trying t _ | unifying t _ _ _ | resolved t _ _ _ => t.stack

end Moment

namespace Program

/-- One turn of a search. -/
def next (p : Program) (queryHead : Cell) : Moment → Except Halt Moment
  | .choosing [] store => .ok (.ended none [] store)
  | .choosing (top :: below) store =>
    match top.point.goals with
    | [] => do
      let store ← store.restore top.point.trailMark top.point.base
      return .ended (some (⟨top.point.head, top.point.trailMark, top.point.base⟩, store))
        below store
    | goal :: rest =>
      if top.point.hasClauses then do
        let (keys, point) ← p.prepare store.heap goal top.point
        return .trying ⟨goal, rest, keys, point.untried, ⟨point, top.origin⟩, below⟩ store
      else Moment.drop top below store
  | .trying trial store =>
    match trial.untried with
    | 0 => Moment.drop trial.top trial.below store
    | untried + 1 =>
      match trial.top.point.candidates.get? trial.top.point.cursor with
      | none => Moment.drop trial.top trial.below store
      | some id =>
        match p.clauses[id]? with
        | none => .error .outOfRange
        | some clause =>
          if trial.keys.admits clause.keys then do
            let (head, heap) ← clause.copyHead store.heap (clause.shift store)
            return .unifying (trial.advance untried) ⟨id, clause, store, head⟩
              [(trial.goal, head)] ⟨heap, store.trail⟩
          else return .trying (trial.advance untried) store
  | .unifying trial attempt [] store => do
    let (body, heap) ← attempt.clause.copyBody store.heap attempt.shift
    return .resolved trial attempt body ⟨heap, store.trail⟩
  | .unifying trial attempt ((a, b) :: work) store => do
    match ← Store.unifyTurn attempt.origin.heap.top a b work store with
    | some (work, store) => return .unifying trial attempt work store
    | none => Moment.retry trial attempt store
  | .resolved trial attempt body store =>
    if body.isEmpty && trial.rest.isEmpty then
      .ok (.ended (some (⟨queryHead, attempt.origin.trail.mark, attempt.origin.heap.top⟩,
        attempt.origin)) trial.stack store)
    else
      let point := ChoicePoint.fresh attempt.head attempt.origin.heap.top (body ++ trial.rest)
        attempt.origin.trail.mark p.clauses.size
      .ok (.choosing (⟨point, attempt.origin⟩ :: trial.stack) store)
  | .ended answer stack store => .ok (.ended answer stack store)

/-- What a turn can do. -/
inductive Turn (p : Program) (queryHead : Cell) : Moment → Moment → Prop
  | finished {s : Store} : Turn p queryHead (.choosing [] s) (.ended none [] s)
  | held {top : Made} {below : List Made} {s t : Store} : top.point.goals = [] →
      s.restore top.point.trailMark top.point.base = .ok t →
      Turn p queryHead (.choosing (top :: below) s)
        (.ended (some (⟨top.point.head, top.point.trailMark, top.point.base⟩, t)) below t)
  | prepared {top : Made} {below : List Made} {s : Store} {goal : Cell} {rest : List Cell}
      {keys : Keys} {point : ChoicePoint} : top.point.goals = goal :: rest →
      p.prepare s.heap goal top.point = .ok (keys, point) →
      Turn p queryHead (.choosing (top :: below) s)
        (.trying ⟨goal, rest, keys, point.untried, ⟨point, top.origin⟩, below⟩ s)
  | dropped {top : Made} {below : List Made} {s t : Store} :
      s.restore top.point.trailMark top.point.base = .ok t →
      Turn p queryHead (.choosing (top :: below) s) (.choosing below t)
  | exhausted {trial : Trial} {s t : Store} :
      s.restore trial.top.point.trailMark trial.top.point.base = .ok t →
      Turn p queryHead (.trying trial s) (.choosing trial.below t)
  | passed {trial : Trial} {s : Store} (untried : Nat) :
      Turn p queryHead (.trying trial s) (.trying (trial.advance untried) s)
  | copied {trial : Trial} {s : Store} {id : Nat} {clause : Clause} {head : Cell} {heap : Heap}
      (untried : Nat) : trial.top.point.candidates.get? trial.top.point.cursor = some id →
      p.clauses[id]? = some clause → trial.keys.admits clause.keys = true →
      clause.copyHead s.heap (clause.shift s) = .ok (head, heap) →
      Turn p queryHead (.trying trial s) (.unifying (trial.advance untried)
        ⟨id, clause, s, head⟩ [(trial.goal, head)] ⟨heap, s.trail⟩)
  | unified {trial : Trial} {attempt : Attempt} {s : Store} {body : List Cell} {heap : Heap} :
      attempt.clause.copyBody s.heap attempt.shift = .ok (body, heap) →
      Turn p queryHead (.unifying trial attempt [] s) (.resolved trial attempt body ⟨heap, s.trail⟩)
  | met {trial : Trial} {attempt : Attempt} {a b : Cell} {work queued : List (Cell × Cell)}
      {s t : Store} :
      Store.unifyTurn attempt.origin.heap.top a b work s = .ok (some (queued, t)) →
      Turn p queryHead (.unifying trial attempt ((a, b) :: work) s)
        (.unifying trial attempt queued t)
  | clashed {trial : Trial} {attempt : Attempt} {a b : Cell} {work : List (Cell × Cell)}
      {s t : Store} : Store.unifyTurn attempt.origin.heap.top a b work s = .ok none →
      s.restore attempt.origin.trail.mark attempt.origin.heap.top = .ok t →
      Turn p queryHead (.unifying trial attempt ((a, b) :: work) s) (.trying trial t)
  | answered {trial : Trial} {attempt : Attempt} {s : Store} : trial.rest = [] →
      Turn p queryHead (.resolved trial attempt [] s) (.ended (some (⟨queryHead,
        attempt.origin.trail.mark, attempt.origin.heap.top⟩, attempt.origin)) trial.stack s)
  | advanced {trial : Trial} {attempt : Attempt} {body : List Cell} {s : Store} :
      body ++ trial.rest ≠ [] → Turn p queryHead (.resolved trial attempt body s)
        (.choosing (⟨.fresh attempt.head attempt.origin.heap.top (body ++ trial.rest)
          attempt.origin.trail.mark p.clauses.size, attempt.origin⟩ :: trial.stack) s)
  | rests {o : Option (Answer × Store)} {stack : List Made} {s : Store} :
      Turn p queryHead (.ended o stack s) (.ended o stack s)

section

variable {p : Program} {queryHead : Cell} {b : Moment} {trial : Trial} {attempt : Attempt}
  {s : Store}

theorem Turn.of_choosing {stack : List Made}
    (turn : p.next queryHead (.choosing stack s) = .ok b) :
    p.Turn queryHead (.choosing stack s) b := by
  cases stack with
  | nil =>
    cases turn
    exact .finished
  | cons top below =>
    simp only [next] at turn
    split at turn
    · next goals =>
      obtain ⟨t, restored, same⟩ := Halt.bind_eq_ok.mp turn
      cases same
      exact .held goals restored
    · next goal rest goals =>
      split at turn
      · obtain ⟨⟨keys, point⟩, prepared, same⟩ := Halt.bind_eq_ok.mp turn
        cases same
        exact .prepared goals prepared
      · obtain ⟨t, restored, same⟩ := Halt.bind_eq_ok.mp turn
        cases same
        exact .dropped restored

theorem Turn.of_trying (turn : p.next queryHead (.trying trial s) = .ok b) :
    p.Turn queryHead (.trying trial s) b := by
  have exhausted (dropped : Moment.drop trial.top trial.below s = .ok b) :
      p.Turn queryHead (.trying trial s) b := by
    obtain ⟨t, restored, same⟩ := Halt.bind_eq_ok.mp dropped
    cases same
    exact .exhausted restored
  simp only [next] at turn
  split at turn
  · exact exhausted turn
  · next untried _ =>
    split at turn
    · exact exhausted turn
    · next id candidate =>
      split at turn
      · cases turn
      · next clause found =>
        split at turn
        · next admitted =>
          obtain ⟨⟨head, heap⟩, copy, same⟩ := Halt.bind_eq_ok.mp turn
          cases same
          exact .copied untried candidate found admitted copy
        · cases turn
          exact .passed untried

theorem Turn.of_unifying {work : List (Cell × Cell)}
    (turn : p.next queryHead (.unifying trial attempt work s) = .ok b) :
    p.Turn queryHead (.unifying trial attempt work s) b := by
  cases work with
  | nil =>
    obtain ⟨⟨body, heap⟩, copy, same⟩ := Halt.bind_eq_ok.mp turn
    cases same
    exact .unified copy
  | cons pair work =>
    obtain ⟨outcome, turned, turn⟩ := Halt.bind_eq_ok.mp turn
    cases outcome with
    | none =>
      obtain ⟨t, restored, same⟩ := Halt.bind_eq_ok.mp turn
      cases same
      exact .clashed turned restored
    | some left =>
      cases turn
      exact .met turned

theorem Turn.of_resolved {body : List Cell}
    (turn : p.next queryHead (.resolved trial attempt body s) = .ok b) :
    p.Turn queryHead (.resolved trial attempt body s) b := by
  simp only [next] at turn
  split at turn
  · next done =>
    rw [Bool.and_eq_true, List.isEmpty_iff, List.isEmpty_iff] at done
    obtain ⟨rfl, rest⟩ := done
    cases turn
    exact .answered rest
  · next more =>
    cases turn
    exact .advanced fun none => more (by simpa using none)

end

theorem Turn.of_next {p : Program} {queryHead : Cell} {a b : Moment}
    (turn : p.next queryHead a = .ok b) : p.Turn queryHead a b := by
  cases a with
  | choosing stack s => exact .of_choosing turn
  | trying trial s => exact .of_trying turn
  | unifying trial attempt work s => exact .of_unifying turn
  | resolved trial attempt body s => exact .of_resolved turn
  | ended o stack s =>
    cases turn
    exact .rests

/-- Some turns lead from the first moment to the second. -/
def Passes (p : Program) (queryHead : Cell) : Moment → Moment → Prop :=
  Relation.ReflTransGen fun a b => p.next queryHead a = .ok b

/-- What every turn keeps holds throughout. -/
theorem Passes.keeps {p : Program} {queryHead : Cell} {I : Moment → Prop} {a b : Moment}
    (turn : ∀ {a b : Moment}, I a → p.Turn queryHead a b → I b) (start : I a)
    (passes : p.Passes queryHead a b) : I b := by
  induction passes with
  | refl => exact start
  | tail _ last ih => exact turn ih (.of_next last)

/-! ### The moments of a search -/

/-- `r` is what a search that stands at `a` returns: it ends with `r`, or a turn on
the way halts, or the fuel was used up. -/
def Comes (p : Program) (queryHead : Cell) (a : Moment) :
    Except Halt (Option Answer × List ChoicePoint × Store) → Prop
  | .ok (answer, points, store) => ∃ o stack, p.Passes queryHead a (.ended o stack store) ∧
      o.map (·.1) = answer ∧ stack.map (·.point) = points
  | .error e => e = .unfinished ∨ ∃ b, p.Passes queryHead a b ∧ p.next queryHead b = .error e

variable {p : Program} {queryHead : Cell} {a b : Moment}
  {r : Except Halt (Option Answer × List ChoicePoint × Store)} {fuel : Nat} {trial : Trial}
  {attempt : Attempt} {s : Store}

theorem Comes.turn (turn : p.next queryHead a = .ok b) (later : p.Comes queryHead b r) :
    p.Comes queryHead a r := by
  cases r with
  | error e =>
    rcases later with none | ⟨c, passes, halts⟩
    · exact .inl none
    · exact .inr ⟨c, passes.head turn, halts⟩
  | ok result =>
    obtain ⟨o, stack, passes, same⟩ := later
    exact ⟨o, stack, passes.head turn, same⟩

/-- A turn that first computes `x` comes to what is computed from `x`. -/
theorem Comes.bind {α : Type} {x : Except Halt α} {f : α → Moment}
    {g : α → Except Halt (Option Answer × List ChoicePoint × Store)}
    (turn : p.next queryHead a = x >>= fun v => pure (f v))
    (later : ∀ v, p.Comes queryHead (f v) (g v)) : p.Comes queryHead a (x >>= g) := by
  cases x with
  | error e => exact .inr ⟨a, .refl, turn⟩
  | ok v => exact (later v).turn turn

/-- A unification is a sequence of turns, up to the last pair or to a clash. -/
theorem comes_unifyAll (trial : Trial) (attempt : Attempt) {work : List (Cell × Cell)}
    {k : Bool × Store → Except Halt (Option Answer × List ChoicePoint × Store)}
    (unified : ∀ t, p.Comes queryHead (.unifying trial attempt [] t) (k (true, t)))
    (clashed : ∀ a t, p.next queryHead a = Moment.retry trial attempt t →
      p.Comes queryHead a (k (false, t))) :
    p.Comes queryHead (.unifying trial attempt work s)
      (Store.unifyAll attempt.origin.heap.top fuel work s >>= k) := by
  induction fuel generalizing work s with
  | zero =>
    cases work with
    | nil => exact unified s
    | cons pair work => exact .inl rfl
  | succ fuel ih =>
    cases work with
    | nil => exact unified s
    | cons pair work =>
      obtain ⟨a, b⟩ := pair
      rw [Store.unifyAll_cons, bind_assoc]
      have turn : p.next queryHead (.unifying trial attempt ((a, b) :: work) s) =
        Store.unifyTurn attempt.origin.heap.top a b work s >>= fun
          | some (work, store) => return .unifying trial attempt work store
          | none => Moment.retry trial attempt s := rfl
      cases turned : Store.unifyTurn attempt.origin.heap.top a b work s with
      | error e =>
        rw [turned] at turn
        exact .inr ⟨_, .refl, turn⟩
      | ok outcome =>
        rw [turned] at turn
        cases outcome with
        | none => exact clashed _ s turn
        | some left =>
          obtain ⟨work', s'⟩ := left
          exact Comes.turn turn ih

/-- An attempt with a clause is a sequence of turns, up to a choice point, an answer
or the next candidate. -/
theorem comes_resolveWith (trial : Trial) {id : Nat} {clause : Clause}
    {k : Option Resolution × Store → Except Halt (Option Answer × List ChoicePoint × Store)}
    (turn : p.next queryHead a = do
      let (head, heap) ← clause.copyHead s.heap (clause.shift s)
      return .unifying trial ⟨id, clause, s, head⟩ [(trial.goal, head)] ⟨heap, s.trail⟩)
    (advanced : ∀ new origin t, p.Comes queryHead (.choosing (⟨new, origin⟩ :: trial.stack) t)
      (k (some (.advanced new), t)))
    (answered : ∀ answer origin t, p.Comes queryHead
      (.ended (some (answer, origin)) trial.stack t) (k (some (.answered answer), t)))
    (failed : ∀ t, p.Comes queryHead (.trying trial t) (k (none, t))) :
    p.Comes queryHead a
      (p.resolveWith fuel queryHead trial.goal trial.rest clause s >>= k) := by
  obtain ⟨heap, trail⟩ := s
  simp only [resolveWith, bind_assoc]
  apply Comes.bind turn
  intro copy
  apply comes_unifyAll trial ⟨id, clause, ⟨heap, trail⟩, copy.1⟩
  · intro t
    simp only [↓reduceIte, bind_assoc]
    apply Comes.bind rfl
    intro whole
    split
    · next done => exact (answered _ _ _).turn (if_pos done)
    · next more => exact (advanced _ _ _).turn (if_neg more)
  · intro a t clash
    simp only [Bool.false_eq_true, ↓reduceIte, bind_assoc]
    exact Comes.bind clash fun back => failed back

/-- Trying the candidates of a goal is a sequence of turns, up to the first clause
that resolves it or to the last candidate. -/
theorem comes_tryCandidates (trial : Trial)
    {k : Resolution × ChoicePoint × Store → Except Halt (Option Answer × List ChoicePoint × Store)}
    (exhausted : ∀ a point t,
      p.next queryHead a = Moment.drop ⟨point, trial.top.origin⟩ trial.below t →
      p.Comes queryHead a (k (.exhausted, point, t)))
    (advanced : ∀ new point origin t, p.Comes queryHead
      (.choosing (⟨new, origin⟩ :: ⟨point, trial.top.origin⟩ :: trial.below) t)
      (k (.advanced new, point, t)))
    (answered : ∀ answer point origin t, p.Comes queryHead
      (.ended (some (answer, origin)) (⟨point, trial.top.origin⟩ :: trial.below) t)
      (k (.answered answer, point, t))) :
    p.Comes queryHead (.trying trial s)
      (p.tryCandidates fuel queryHead trial.goal trial.rest trial.keys trial.untried
        trial.top.point s >>= k) := by
  generalize count : trial.untried = untried
  induction untried generalizing trial s with
  | zero =>
    apply exhausted
    simp only [next, count]
  | succ untried ih =>
    have later (s : Store) := ih (trial.advance untried) exhausted advanced answered (s := s) rfl
    cases candidate : trial.top.point.candidates.get? trial.top.point.cursor with
    | none =>
      simp only [tryCandidates, candidate]
      apply exhausted
      simp only [next, count, candidate]
    | some id =>
      cases found : p.clauses[id]? with
      | none =>
        simp only [tryCandidates, candidate, found]
        exact .inr ⟨_, .refl, by simp only [next, count, candidate, found]⟩
      | some clause =>
        simp only [tryCandidates, candidate, found]
        split
        · next admitted =>
          rw [bind_assoc]
          apply comes_resolveWith (trial.advance untried)
          · simp only [next, count, candidate, found, admitted, ↓reduceIte]
            rfl
          · exact fun new origin t => advanced new _ origin t
          · exact fun answer origin t => answered answer _ origin t
          · exact later
        · next refused =>
          apply (later s).turn
          simp only [next, count, candidate, found, refused]
          rfl

/-- Whatever a search returns, its moments come to. -/
theorem comes_search (p : Program) (queryHead : Cell) (fuel : Nat) (stack : List Made) (s : Store) :
    p.Comes queryHead (.choosing stack s)
      (p.search queryHead fuel (stack.map (·.point)) s) := by
  induction fuel generalizing stack s with
  | zero =>
    cases stack with
    | nil => exact ⟨none, [], .single rfl, rfl, rfl⟩
    | cons top below => exact .inl rfl
  | succ fuel ih =>
    cases stack with
    | nil => exact ⟨none, [], .single rfl, rfl, rfl⟩
    | cons top below =>
      have dropped (a : Moment) (point : ChoicePoint) (t : Store)
          (turn : p.next queryHead a = Moment.drop ⟨point, top.origin⟩ below t) :
          p.Comes queryHead a (t.restore point.trailMark point.base >>=
            p.search queryHead fuel (below.map (·.point))) :=
        Comes.bind turn fun t => ih below t
      cases goals : top.point.goals with
      | nil =>
        simp only [List.map_cons, search, ChoicePoint.hasGoals, goals]
        refine Comes.bind (f := fun t => .ended (some (⟨top.point.head, top.point.trailMark,
          top.point.base⟩, t)) below t) ?_ fun t => ⟨_, below, .refl, rfl, rfl⟩
        simp only [next, goals]
      | cons goal rest =>
        cases clauses : top.point.hasClauses with
        | false =>
          simp only [List.map_cons, search, ChoicePoint.hasGoals, goals, clauses]
          apply dropped
          simp [next, goals, clauses]
        | true =>
          simp only [List.map_cons, search, ChoicePoint.hasGoals, goals, clauses, unfold,
            bind_assoc]
          refine Comes.bind (f := fun (keys, point) => .trying ⟨goal, rest, keys, point.untried,
            ⟨point, top.origin⟩, below⟩ s) ?_ fun (keys, point) => ?_
          · simp only [next, goals, clauses]
            rfl
          · apply comes_tryCandidates ⟨goal, rest, keys, point.untried, ⟨point, top.origin⟩,
              below⟩
            · exact dropped
            · exact fun new point origin t => ih (⟨new, origin⟩ :: ⟨point, top.origin⟩ :: below) t
            · exact fun answer point origin t => ⟨some (answer, origin), _, .refl, rfl, rfl⟩

end Program

end HornMachine
