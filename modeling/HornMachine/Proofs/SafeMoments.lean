import HornMachine.Proofs.Readouts
import HornMachine.Proofs.Sparing
import HornMachine.Proofs.Watermarks

/-!
# Searches that spare the query

When the query is not called, a search only copies rules, and their templates stay
as they were loaded. So every store it goes through is safe, with goals that spare
the query: not only between two resolutions, but after each single binding, while
the head is all that is copied of a clause.

A choice point keeps the keys of its first goal, and bindings may have been made
since they were computed. The keys still rule out the query, which is all that is
asked of them here. Such a search never reads or writes outside the heap; it can
only run out of room.
-/
namespace HornMachine

theorem Clause.copyHead_fits {c : Clause} {h : Heap} (placed : c.Placed h.top) (shift : Nat) :
    Halt.Fits (c.copyHead h shift) := by
  have inside := placed.inside
  have short := placed.head
  exact (Heap.copyRelocated_fits (by omega) shift).bind fun k _ => .ok rfl

theorem Clause.copyBody_fits {c : Clause} {h : Heap} (placed : c.Placed h.top) (shift : Nat) :
    Halt.Fits (c.copyBody h shift) := by
  have inside := placed.inside
  have short := placed.head
  exact (Heap.copyRelocated_fits (by omega) shift).bind fun k _ => .ok rfl

theorem Tame.mono {w : Codes} {sym : Nat} {h k : Heap} {goals : List Cell}
    (tame : Tame w sym h goals) (keeps : Heap.Keeps w.floor h k) (safe : k.Safe w) :
    Tame w sym k goals :=
  ⟨safe, fun g member => (tame.spares g member).mono keeps⟩

theorem Candidates.mem_of_get? {c : Candidates} {i id : Nat} (found : c.get? i = some id) :
    id ∈ c.toList :=
  List.mem_of_getElem? ((c.getElem?_toList i).trans found)

theorem Program.candidatesFor_lt {p : Program} (indexed : p.Indexed) {k : Keys} {i id : Nat}
    (found : (p.candidatesFor k).get? i = some id) : id < p.clauses.size := by
  obtain ⟨selected, list, -⟩ := exists_selected indexed k
  have member := Candidates.mem_of_get? found
  rw [list, List.mem_filter, List.mem_range] at member
  exact member.1

/-! ### What holds at a moment -/

/-- The keys rule out the query. -/
def Program.Refuses (p : Program) (w : Codes) (keys : Keys) : Prop :=
  keys.admits (w.query.keys w.query.head p.settings.positions) = false

/-- A choice point with goals that spare the query, on which a store is in force that
went on from `floor`. -/
structure Made.Ready (p : Program) (w : Codes) (sym : Nat) (floor : Store) (q : Made)
    (s : Store) : Prop where
  tame : Tame w sym s.heap q.point.goals
  keeps : Heap.Keeps w.floor floor.heap s.heap
  /-- A head that is answered at once is there when the choice point is taken back. -/
  held : q.point.goals = [] → q.origin.heap.IsTerm w.floor w.count q.point.head
  refused : ∀ keys, q.point.keys = some keys → p.Refuses w keys
  candidates : ∀ i id, q.point.candidates.get? i = some id → id < p.clauses.size

/-- The goal that is tried is the first one of the choice point, and the query is no
candidate for it. -/
structure Trial.Sound (p : Program) (w : Codes) (trial : Trial) : Prop where
  goals : trial.top.point.goals = trial.goal :: trial.rest
  refused : p.Refuses w trial.keys

/-- The head of a rule, copied and being unified with a goal. -/
structure Attempt.Unifies (p : Program) (w : Codes) (goal : Cell) (attempt : Attempt)
    (work : List (Cell × Cell)) (s : Store) (code : ClauseCode) (copied : Heap) : Prop where
  rule : w.rules[attempt.id]? = some code
  clause : attempt.clause = code.clauseAt p.settings.positions (w.base attempt.id)
  head : attempt.head = code.head.relocate attempt.origin.heap.top
  copy : code.Copied code.headLen attempt.origin.heap copied
  within : Store.Within w.floor w.count copied work s
  /-- What comes of the pairs that are left comes of the goal and the head. -/
  reached : ∀ fuel r, Store.unifyAll attempt.origin.heap.top fuel work s = .ok r →
    ∃ more, Store.unify ⟨copied, attempt.origin.trail⟩ more attempt.origin.heap.top goal
      attempt.head = .ok r

variable {p : Program} {w : Codes} {sym : Nat} {floor s t : Store} {q : Made} {qs : List Made}
  {queryHead goal : Cell} {rest : List Cell} {keys : Keys} {point : ChoicePoint}
  {trial : Trial} {attempt : Attempt} {work : List (Cell × Cell)} {code : ClauseCode}
  {copied : Heap} {a b : Moment}

theorem Made.Ready.mono (ready : q.Ready p w sym floor s) (keeps : Heap.Keeps w.floor s.heap t.heap)
    (safe : t.heap.Safe w) : q.Ready p w sym floor t :=
  ⟨ready.tame.mono keeps safe, ready.keeps.trans keeps, ready.held, ready.refused,
    ready.candidates⟩

theorem Nested.safe (nested : Nested (Made.Ready p w sym floor) floor qs s)
    (safe : floor.heap.Safe w) : s.heap.Safe w ∧ Heap.Keeps w.floor floor.heap s.heap := by
  cases qs with
  | nil =>
    cases nested
    exact ⟨safe, .refl _ _⟩
  | cons q qs => exact ⟨nested.1.tame.safe, nested.1.keeps⟩

theorem Made.Ready.prepare (ready : q.Ready p w sym floor s) (runs : p.Runs w)
    (uncalled : Uncalled w sym) (indexed : p.Indexed) (goals : q.point.goals = goal :: rest)
    (prepared : p.prepare s.heap goal q.point = .ok (keys, point)) :
    Made.Ready p w sym floor ⟨point, q.origin⟩ s ∧ point.goals = goal :: rest ∧
      p.Refuses w keys := by
  unfold Program.prepare at prepared
  cases known : q.point.keys with
  | some K =>
    rw [known] at prepared
    cases prepared
    exact ⟨ready, goals, ready.refused keys known⟩
  | none =>
    rw [known] at prepared
    obtain ⟨K, made, same⟩ := Halt.bind_eq_ok.mp prepared
    have tame := ready.tame
    rw [goals] at tame
    have refused : p.Refuses w K :=
      tame.refused uncalled runs.queryUsable p.settings.positions_pos made
    cases same
    refine ⟨⟨ready.tame, ready.keeps, ready.held, ?_, ?_⟩, goals, refused⟩
    · intro keys same
      cases same
      exact refused
    · intro i id found
      cases which : p.index with
      | none =>
        simp only [which] at found
        exact ready.candidates i id found
      | some index =>
        apply Program.candidatesFor_lt indexed (k := keys) (i := i)
        rw [Program.candidatesFor, which]
        simpa only [which] using found

theorem Made.Ready.advance (ready : trial.top.Ready p w sym floor s) (untried : Nat) :
    (trial.advance untried).top.Ready p w sym floor s :=
  ⟨ready.tame, ready.keeps, ready.held, ready.refused, ready.candidates⟩

theorem Trial.Sound.advance (sound : trial.Sound p w) (untried : Nat) :
    (trial.advance untried).Sound p w := ⟨sound.goals, sound.refused⟩

/-- The goal that is tried spares the query, and so do the goals behind it. -/
theorem Made.Ready.tame_trial (ready : trial.top.Ready p w sym floor s)
    (sound : trial.Sound p w) : Tame w sym s.heap (trial.goal :: trial.rest) :=
  sound.goals ▸ ready.tame

namespace Attempt.Unifies

/-- A clause that the keys admit is a rule, and its copied head lies in the region. -/
theorem of_copyHead {id : Nat} {clause : Clause} {head : Cell} {heap : Heap} (runs : p.Runs w)
    (ready : trial.top.Ready p w sym floor s) (sound : trial.Sound p w)
    (found : p.clauses[id]? = some clause) (admitted : trial.keys.admits clause.keys = true)
    (copied : clause.copyHead s.heap (clause.shift s) = .ok (head, heap)) :
    ∃ code front, Attempt.Unifies p w trial.goal ⟨id, clause, s, head⟩ [(trial.goal, head)]
      ⟨heap, s.trail⟩ code front := by
  have tame := ready.tame_trial sound
  rcases runs.cases found with ⟨code, rule, rfl⟩ | ⟨-, rfl⟩
  · have usable := runs.rule_usable rule
    have inside := (runs.placed id _ found).mono (runs.static ▸ tame.safe.static)
    obtain ⟨rfl, copied⟩ := (Clause.copyHead_eq_ok inside).mp copied
    rw [tame.safe.copiedHead rule usable] at copied
    have moved : (code.clauseAt p.settings.positions (w.base id)).head.relocate
        ((code.clauseAt p.settings.positions (w.base id)).shift s) =
          code.head.relocate s.heap.top := head_relocate (tame.safe.base_le rule)
    refine ⟨code, heap, rule, rfl, moved, copied, ?_, fun fuel r ended => ⟨fuel, ended⟩⟩
    rw [moved]
    exact tame.safe.within usable usable.cut usable.head_lt copied tame.head.term s.trail
  · have refused := sound.refused
    exact absurd admitted (by rw [ClauseCode.clauseAt]; exact Bool.eq_false_iff.mp refused)

/-- What is left of the pairs after a turn still comes of the goal and the head. -/
theorem met {x y : Cell} {queued : List (Cell × Cell)}
    (unifies : attempt.Unifies p w goal ((x, y) :: work) s code copied)
    (turned : Store.unifyTurn attempt.origin.heap.top x y work s = .ok (some (queued, t))) :
    attempt.Unifies p w goal queued t code copied where
  rule := unifies.rule
  clause := unifies.clause
  head := unifies.head
  copy := unifies.copy
  within := by
    obtain ⟨x', y', ax, bY, met⟩ := Store.Met.of_unifyTurn turned
    exact unifies.within.turn ax bY met
  reached fuel r ended := by
    apply unifies.reached (fuel + 1) r
    rw [Store.unifyAll_cons, turned]
    exact ended

theorem safe (unifies : attempt.Unifies p w goal work s code copied)
    (origin : attempt.origin.heap.Safe w) :
    s.heap.Safe w ∧ Heap.Keeps w.floor attempt.origin.heap s.heap := by
  have keeps := (Heap.Keeps.append unifies.copy).trans unifies.within.keeps
  have top := Heap.top_append unifies.copy
  refine ⟨origin.mono keeps unifies.within.rooted unifies.within.closed ?_, keeps⟩
  rw [unifies.within.top]
  omega

theorem attempted {heap : Heap} (unifies : attempt.Unifies p w goal [] s code copied)
    (usable : code.Usable w.count) (origin : attempt.origin.heap.Safe w)
    (term : attempt.origin.heap.IsTerm w.floor w.count goal)
    (body : attempt.clause.CopiedBody attempt.origin s.heap heap) :
    ∃ fuel, code.attempt fuel goal attempt.origin.heap = .ok (true, heap) := by
  obtain ⟨fuel, unified⟩ := unifies.reached 0 (true, s) rfl
  have rule := unifies.rule
  have head := (origin.copiedHead rule usable p.settings.positions).mpr unifies.copy
  have moved : (code.clauseAt p.settings.positions (w.base attempt.id)).head.relocate
      ((code.clauseAt p.settings.positions (w.base attempt.id)).shift attempt.origin) =
        code.head.relocate attempt.origin.heap.top := head_relocate (origin.base_le rule)
  rw [unifies.head, ← moved] at unified
  rw [unifies.clause] at body
  have resolves : (code.clauseAt p.settings.positions (w.base attempt.id)).Resolves fuel goal
      attempt.origin ⟨heap, s.trail⟩ := ⟨copied, s, head, unified, body, rfl⟩
  exact ⟨fuel, origin.attempt_of_resolves rule usable term resolves⟩

/-- The goals of a clause that is copied completely spare the query. -/
theorem resolved {rest body : List Cell} {heap : Heap} (runs : p.Runs w)
    (uncalled : Uncalled w sym) (tame : Tame w sym attempt.origin.heap (goal :: rest))
    (found : p.clauses[attempt.id]? = some attempt.clause)
    (unifies : attempt.Unifies p w goal [] s code copied)
    (copy : attempt.clause.copyBody s.heap attempt.shift = .ok (body, heap)) :
    Tame w sym heap (body ++ rest) ∧ Heap.Keeps w.floor attempt.origin.heap heap := by
  have usable := runs.rule_usable unifies.rule
  have safe := (unifies.safe tame.safe).1
  have inside := (runs.placed _ _ found).mono (runs.static ▸ safe.static)
  obtain ⟨rfl, copy⟩ := (Clause.copyBody_eq_ok (t := attempt.origin) inside).mp copy
  obtain ⟨fuel, attempted⟩ := unifies.attempted usable tame.safe tame.head.term copy
  obtain ⟨-, full, whole, keeps, -⟩ := tame.safe.attempted usable tame.head.term attempted
  have member := List.mem_append_left [w.query] (List.mem_of_getElem? unifies.rule)
  have body : attempt.clause.body.map (·.relocate (attempt.clause.shift attempt.origin)) =
      code.body.map (·.relocate attempt.origin.heap.top) := by
    rw [unifies.clause]
    exact body_relocate (tame.safe.base_le unifies.rule)
  refine ⟨?_, (Heap.Keeps.append whole).trans keeps⟩
  rw [body]
  exact tame.attempted uncalled usable member attempted

end Attempt.Unifies

namespace Program

/-- What holds at a moment of a search that spares the query. -/
def Spared (p : Program) (w : Codes) (sym : Nat) (floor : Store) : Moment → Prop
  | .choosing stack s => Nested (Made.Ready p w sym floor) floor stack s
  | .trying trial s => Nested (Made.Ready p w sym floor) floor trial.stack s ∧ trial.Sound p w
  | .unifying trial attempt work s =>
    Nested (Made.Ready p w sym floor) floor trial.stack attempt.origin ∧ trial.Sound p w ∧
      ∃ code copied, attempt.Unifies p w trial.goal work s code copied
  | .resolved trial attempt body s =>
    Nested (Made.Ready p w sym floor) floor trial.stack attempt.origin ∧
      Tame w sym s.heap (body ++ trial.rest) ∧ Heap.Keeps w.floor attempt.origin.heap s.heap
  | .ended none _ _ => True
  | .ended (some (a, origin)) stack s =>
    Nested (Made.Ready p w sym floor) floor stack s ∧
      Nested (Made.Ready p w sym floor) floor stack origin ∧
      s.heap.IsTerm w.floor w.count a.head

/-- Every turn spares the query. -/
theorem Spared.turn (runs : p.Runs w) (uncalled : Uncalled w sym) (indexed : p.Indexed)
    (query : floor.heap.IsTerm w.floor w.count queryHead) (marked : p.Marked floor a)
    (spared : p.Spared w sym floor a) (turn : p.Turn queryHead a b) :
    p.Spared w sym floor b := by
  cases turn with
  | finished => trivial
  | held goals restored =>
    obtain rfl := marked.1.restored restored
    exact ⟨spared.2, spared.2, spared.1.held goals⟩
  | prepared goals prepared =>
    obtain ⟨ready, goals, refused⟩ := spared.1.prepare runs uncalled indexed goals prepared
    exact ⟨⟨ready, spared.2⟩, goals, refused⟩
  | dropped restored =>
    obtain rfl := marked.1.restored restored
    exact spared.2
  | exhausted restored =>
    obtain rfl := marked.1.restored restored
    exact spared.1.2
  | passed untried =>
    exact ⟨spared.1.advance (Made.Ready.advance · untried), spared.2.advance untried⟩
  | copied untried candidate found admitted copied =>
    obtain ⟨nested, sound⟩ := spared
    have unifies := Attempt.Unifies.of_copyHead runs nested.1 sound found admitted copied
    exact ⟨nested.advance (Made.Ready.advance · untried), sound.advance untried, unifies⟩
  | unified copied =>
    obtain ⟨nested, sound, code, front, unifies⟩ := spared
    exact ⟨nested, unifies.resolved runs uncalled (nested.1.tame_trial sound) marked.2.1 copied⟩
  | met turned =>
    obtain ⟨nested, sound, code, front, unifies⟩ := spared
    exact ⟨nested, sound, code, front, unifies.met turned⟩
  | clashed _ restored =>
    obtain rfl := marked.2.2.1.restored restored
    exact ⟨spared.1, spared.2.1⟩
  | answered _ =>
    obtain ⟨nested, tame, keeps⟩ := spared
    exact ⟨⟨nested.1.mono keeps tame.safe, nested.2⟩, nested,
      query.mono (nested.1.keeps.trans keeps)⟩
  | advanced some =>
    obtain ⟨nested, tame, keeps⟩ := spared
    refine ⟨⟨tame, nested.1.keeps.trans keeps, fun none => absurd none some, ?_, ?_⟩, nested⟩
    · intro keys known
      cases known
    · intro i id found
      exact List.mem_range.mp (Candidates.mem_of_get? found)
  | rests => exact spared

/-! ### Turns fit -/

theorem drop_fits (nested : Nested Made.Atop floor (q :: qs) s) :
    Halt.Fits (Moment.drop q qs s) := by
  unfold Moment.drop
  rw [nested.1.restore]
  exact .ok rfl

/-- The keys of a goal that spares the query can be computed. -/
theorem prepare_fits (tame : Tame w sym s.heap (goal :: rest)) (point : ChoicePoint) :
    Halt.Fits (p.prepare s.heap goal point) := by
  obtain ⟨keys, made⟩ := Keys.exists_ofRef tame.safe.closed tame.head.term tame.head.tag
    p.settings.positions
  unfold prepare
  cases point.keys with
  | some known => exact .ok rfl
  | none =>
    rw [made]
    exact .ok rfl

theorem fits_choosing (marked : Nested Made.Atop floor (q :: qs) s)
    (ready : q.Ready p w sym floor s) (queryHead : Cell) :
    Halt.Fits (p.next queryHead (.choosing (q :: qs) s)) := by
  simp only [next]
  split
  · rw [marked.1.restore]
    exact .ok rfl
  · next goal rest goals =>
    split
    · have tame := ready.tame
      rw [goals] at tame
      exact (prepare_fits tame q.point).bind fun prepared _ => .ok rfl
    · exact drop_fits marked

theorem fits_trying (runs : p.Runs w) (marked : Nested Made.Atop floor trial.stack s)
    (ready : trial.top.Ready p w sym floor s) (queryHead : Cell) :
    Halt.Fits (p.next queryHead (.trying trial s)) := by
  simp only [next]
  split
  · exact drop_fits marked
  · split
    · exact drop_fits marked
    · next id candidate =>
      have inside := ready.candidates _ id candidate
      have found : p.clauses[id]? = some p.clauses[id] := Array.getElem?_eq_getElem inside
      rw [found]
      dsimp only
      split
      · have placed := (runs.placed id _ found).mono (runs.static ▸ ready.tame.safe.static)
        exact (Clause.copyHead_fits placed _).bind fun copy _ => .ok rfl
      · exact .ok rfl

theorem fits_unifying (runs : p.Runs w) (marked : p.Marked floor (.unifying trial attempt work s))
    (origin : attempt.origin.heap.Safe w)
    (unifies : attempt.Unifies p w trial.goal work s code copied) (queryHead : Cell) :
    Halt.Fits (p.next queryHead (.unifying trial attempt work s)) := by
  cases work with
  | nil =>
    have safe := (unifies.safe origin).1
    have placed := (runs.placed _ _ marked.2.1).mono (runs.static ▸ safe.static)
    exact (Clause.copyBody_fits placed _).bind fun copy _ => .ok rfl
  | cons pair work =>
    obtain ⟨x, y⟩ := pair
    obtain ⟨outcome, turned⟩ := unifies.within.exists_turn attempt.origin.heap.top
    simp only [next, turned, Halt.ok_bind]
    cases outcome with
    | some left => exact .ok rfl
    | none =>
      unfold Moment.retry
      dsimp only
      rw [marked.2.2.1.restore]
      exact .ok rfl

/-- No turn reads or writes outside the heap, and every variable chain it follows
ends. -/
theorem Spared.fits (runs : p.Runs w) (marked : p.Marked floor a)
    (spared : p.Spared w sym floor a) (queryHead : Cell) : Halt.Fits (p.next queryHead a) := by
  cases a with
  | choosing stack s =>
    cases stack with
    | nil => exact .ok rfl
    | cons top below => exact fits_choosing marked spared.1 queryHead
  | trying trial s => exact fits_trying runs marked spared.1.1 queryHead
  | unifying trial attempt work s =>
    obtain ⟨nested, sound, code, front, unifies⟩ := spared
    exact fits_unifying runs marked nested.1.tame.safe unifies queryHead
  | resolved trial attempt body s =>
    simp only [next]
    split <;> exact .ok rfl
  | ended o stack s => exact .ok rfl

end Program

end HornMachine
