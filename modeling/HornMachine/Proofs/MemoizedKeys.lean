import HornMachine.Proofs.Backtracking

/-!
# Kept keys stay valid

The keys of a goal are computed when its choice point is first looked at, and used each
time the search comes back to it. What was done in between is undone by then: as long as
every answer is undone before the search goes on, one store is in force on a choice point
whenever it is looked at. So the keys it keeps, and the candidates it took from the index
with them, are those that would be computed again.

The candidates ascend, and the cursor only moves on, past each clause that is taken up.
So no clause is tried twice at a choice point, and none after one that was declared
later.
-/
namespace HornMachine

/-- What a choice point keeps of its first goal is true of the store in force on it. -/
structure Made.Recalls (p : Program) (q : Made) (s : Store) : Prop where
  unkeyed : q.point.keys = none → q.point.candidates = .all p.clauses.size
  candidates : ∀ keys, q.point.keys = some keys → q.point.candidates = p.candidatesFor keys
  keys : ∀ keys goal rest, q.point.keys = some keys → q.point.goals = goal :: rest →
    Keys.ofRef s.heap goal p.settings.positions = .ok keys

variable {p : Program} {q : Made} {s t floor : Store} {goal : Cell} {rest : List Cell}
  {keys : Keys} {point P : ChoicePoint} {trial : Trial} {a b : Moment} {queryHead : Cell}
  {depth id : Nat}

namespace Made.Recalls

theorem fresh (p : Program) (head : Cell) (base : Nat) (goals : List Cell) (mark : Nat)
    (origin s : Store) :
    Recalls p ⟨.fresh head base goals mark p.clauses.size, origin⟩ s where
  unkeyed _ := rfl
  candidates _ known := by cases known
  keys _ _ _ known := by cases known

theorem prepare (recalls : q.Recalls p s) (goals : q.point.goals = goal :: rest)
    (prepared : p.prepare s.heap goal q.point = .ok (keys, point)) :
    Recalls p ⟨point, q.origin⟩ s ∧ point.keys = some keys := by
  unfold Program.prepare at prepared
  cases known : q.point.keys with
  | some kept =>
    rw [known] at prepared
    cases prepared
    exact ⟨recalls, known⟩
  | none =>
    rw [known] at prepared
    obtain ⟨made, exact, same⟩ := Halt.bind_eq_ok.mp prepared
    cases same
    refine ⟨⟨nofun, ?_, ?_⟩, rfl⟩
    · intro keys same
      cases same
      rw [recalls.unkeyed known]
      rfl
    · intro keys goal' rest' same goals'
      cases same
      obtain ⟨rfl, -⟩ := List.cons.inj (goals.symm.trans goals')
      exact exact

end Made.Recalls

namespace Program

/-- What is kept at a moment of a search that started from `floor`. -/
def Remembers (p : Program) (floor : Store) : Moment → Prop
  | .choosing stack s => Nested (Made.Recalls p) floor stack s
  | .trying trial s => Nested (Made.Recalls p) floor trial.stack s ∧
      trial.top.point.keys = some trial.keys
  | .unifying trial attempt _ _ => Nested (Made.Recalls p) floor trial.stack attempt.origin ∧
      trial.top.point.keys = some trial.keys
  | .resolved trial attempt _ _ => Nested (Made.Recalls p) floor trial.stack attempt.origin ∧
      trial.top.point.keys = some trial.keys
  | .ended none _ _ => True
  | .ended (some (_, origin)) stack _ => Nested (Made.Recalls p) floor stack origin

theorem Remembers.advance (nested : Nested (Made.Recalls p) floor trial.stack s) (untried : Nat) :
    Nested (Made.Recalls p) floor (trial.advance untried).stack s :=
  ⟨⟨nested.1.unkeyed, nested.1.candidates, nested.1.keys⟩, nested.2⟩

theorem Remembers.turn (marked : p.Marked floor a) (remembers : p.Remembers floor a)
    (turn : p.Turn queryHead a b) : p.Remembers floor b := by
  cases turn with
  | finished => trivial
  | held _ restored =>
    obtain rfl := marked.1.restored restored
    exact remembers.2
  | prepared goals prepared =>
    obtain ⟨recalls, known⟩ := remembers.1.prepare goals prepared
    exact ⟨⟨recalls, remembers.2⟩, known⟩
  | dropped restored =>
    obtain rfl := marked.1.restored restored
    exact remembers.2
  | exhausted restored =>
    obtain rfl := marked.1.restored restored
    exact remembers.1.2
  | passed untried => exact ⟨Remembers.advance remembers.1 untried, remembers.2⟩
  | copied untried _ _ _ _ => exact ⟨Remembers.advance remembers.1 untried, remembers.2⟩
  | unified _ => exact remembers
  | met _ => exact remembers
  | clashed _ restored =>
    obtain rfl := marked.2.2.1.restored restored
    exact remembers
  | answered _ => exact remembers.1
  | advanced _ => exact ⟨.fresh .., remembers.1⟩
  | rests => exact remembers

end Program

/-! ### The order of the candidates -/

/-- The choice point on a stack with `depth` others below it. -/
def pointAt (depth : Nat) : List Made → Option ChoicePoint
  | [] => none
  | q :: qs => if qs.length = depth then some q.point else pointAt depth qs

theorem pointAt_top (q : Made) (qs : List Made) : pointAt qs.length (q :: qs) = some q.point :=
  if_pos rfl

theorem pointAt_below {qs : List Made} (q : Made) (inside : depth < qs.length) :
    pointAt depth (q :: qs) = pointAt depth qs :=
  if_neg (by omega)

theorem lt_length_of_pointAt {qs : List Made} (found : pointAt depth qs = some P) :
    depth < qs.length := by
  induction qs with
  | nil => cases found
  | cons q qs ih =>
    unfold pointAt at found
    rw [List.length_cons]
    split at found
    · omega
    · have := ih found
      omega

namespace Moment

/-- The choice point with `depth` others below it takes up the clause `id`. -/
def TakesUp (depth id : Nat) : Moment → Prop
  | .trying trial _ => trial.below.length = depth ∧ trial.untried ≠ 0 ∧
      trial.top.point.candidates.get? trial.top.point.cursor = some id
  | .choosing _ _ | .unifying _ _ _ _ | .resolved _ _ _ _ | .ended _ _ _ => False

instance (depth id : Nat) (a : Moment) : Decidable (a.TakesUp depth id) :=
  match a with
  | .trying _ _ => inferInstanceAs (Decidable (_ ∧ _ ∧ _))
  | .choosing _ _ | .unifying _ _ _ _ | .resolved _ _ _ _ | .ended _ _ _ =>
    inferInstanceAs (Decidable False)

/-- The answer that was found is undone, and the next one is asked for. -/
inductive Resumes : Moment → Moment → Prop
  | undone {answer : Answer} {origin s t : Store} {stack : List Made} :
      s.restore answer.trailMark answer.base = .ok t →
      Resumes (.ended (some (answer, origin)) stack s) (.choosing stack t)

end Moment

/-- A later state of a choice point whose keys are known. -/
structure ChoicePoint.Ahead (point later : ChoicePoint) : Prop where
  keys : later.keys = point.keys
  candidates : later.candidates = point.candidates
  cursor_le : point.cursor ≤ later.cursor

theorem ChoicePoint.Ahead.refl (point : ChoicePoint) : point.Ahead point :=
  ⟨rfl, rfl, Nat.le_refl _⟩

theorem pointAt_cons_cases {q : Made} {qs : List Made}
    (found : pointAt depth (q :: qs) = some P) :
    (qs.length = depth ∧ q.point = P) ∨ (depth < qs.length ∧ pointAt depth qs = some P) := by
  by_cases top : qs.length = depth
  · subst top
    exact .inl ⟨rfl, Option.some.inj ((pointAt_top q qs).symm.trans found)⟩
  · have inside : depth < qs.length := by
      have := lt_length_of_pointAt found
      rw [List.length_cons] at this
      omega
    exact .inr ⟨inside, (pointAt_below q inside).symm.trans found⟩

theorem Trial.ahead_advance {trial : Trial} (untried : Nat)
    (found : pointAt depth trial.stack = some P) :
    ∃ Q, pointAt depth (trial.advance untried).stack = some Q ∧ P.Ahead Q ∧
      (trial.below.length = depth → P.cursor < Q.cursor) := by
  obtain ⟨rfl, rfl⟩ | ⟨inside, found⟩ := pointAt_cons_cases found
  · exact ⟨_, pointAt_top _ _, ⟨rfl, rfl, Nat.le_succ _⟩, fun _ => Nat.lt_succ_self _⟩
  · exact ⟨P, (pointAt_below _ inside).trans found, .refl P, fun here => by omega⟩

theorem Program.pointAt_prepare {h : Heap} {goal : Cell} {keys' : Keys} {point : ChoicePoint}
    {top : Made} {below : List Made} (found : pointAt depth (top :: below) = some P)
    (known : P.keys = some keys) (prepared : p.prepare h goal top.point = .ok (keys', point)) :
    pointAt depth (⟨point, top.origin⟩ :: below) = some P := by
  obtain ⟨rfl, rfl⟩ | ⟨inside, found⟩ := pointAt_cons_cases found
  · simp only [prepare, known, Except.ok.injEq, Prod.mk.injEq] at prepared
    obtain ⟨-, rfl⟩ := prepared
    exact pointAt_top _ _
  · exact (pointAt_below _ inside).trans found

/-- A turn that leaves a choice point on the stack moves its cursor on at most, and does
so if the choice point takes up a clause. -/
theorem Program.Turn.ahead (turn : p.Turn queryHead a b)
    (found : pointAt depth a.stack = some P) (known : P.keys = some keys)
    (there : depth < b.stack.length) :
    ∃ Q, pointAt depth b.stack = some Q ∧ P.Ahead Q ∧
      ∀ id, a.TakesUp depth id → P.cursor < Q.cursor := by
  cases turn with
  | finished => cases found
  | held _ _ => exact ⟨P, (pointAt_below _ there).symm.trans found, .refl P, nofun⟩
  | prepared _ prepared => exact ⟨P, pointAt_prepare found known prepared, .refl P, nofun⟩
  | dropped _ => exact ⟨P, (pointAt_below _ there).symm.trans found, .refl P, nofun⟩
  | exhausted _ =>
    refine ⟨P, (pointAt_below _ there).symm.trans found, .refl P, ?_⟩
    rintro id ⟨rfl, -⟩
    exact absurd there (Nat.lt_irrefl _)
  | passed untried =>
    obtain ⟨Q, at', ahead, less⟩ := Trial.ahead_advance untried found
    exact ⟨Q, at', ahead, fun id takes => less takes.1⟩
  | copied untried _ _ _ _ =>
    obtain ⟨Q, at', ahead, less⟩ := Trial.ahead_advance untried found
    exact ⟨Q, at', ahead, fun id takes => less takes.1⟩
  | unified _ => exact ⟨P, found, .refl P, nofun⟩
  | met _ => exact ⟨P, found, .refl P, nofun⟩
  | clashed _ _ => exact ⟨P, found, .refl P, nofun⟩
  | answered _ => exact ⟨P, found, .refl P, nofun⟩
  | advanced _ =>
    exact ⟨P, (pointAt_below _ (lt_length_of_pointAt found)).trans found, .refl P, nofun⟩
  | rests => exact ⟨P, found, .refl P, nofun⟩

theorem Program.pairwise_candidatesFor (indexed : p.Indexed) (keys : Keys) :
    (p.candidatesFor keys).toList.Pairwise (· < ·) := by
  obtain ⟨selected, list, -⟩ := exists_selected indexed keys
  rw [list]
  exact List.pairwise_lt_range.filter _

namespace Machine

variable {m : Machine} {cs : List Call} {settings : Settings} {rules : List ClauseCode}
  {query : ClauseCode} {symbols : Symbols} {stack : List Made}

/-- A turn of a search, or the step from an answer to the search for the next one, which
leaves more than `depth` choice points on the stack. -/
def Proceeds (m : Machine) (depth : Nat) (a b : Moment) : Prop :=
  (m.program.next m.queryHead a = .ok b ∨ a.Resumes b) ∧ depth < b.stack.length

theorem Proceeds.ahead (proceeds : m.Proceeds depth a b)
    (found : pointAt depth a.stack = some P) (known : P.keys = some keys) :
    ∃ Q, pointAt depth b.stack = some Q ∧ P.Ahead Q ∧
      ∀ id, a.TakesUp depth id → P.cursor < Q.cursor := by
  obtain ⟨turn | resumes, there⟩ := proceeds
  · exact (Program.Turn.of_next turn).ahead found known there
  · cases resumes
    exact ⟨P, found, ⟨rfl, rfl, Nat.le_refl _⟩, nofun⟩

/-- While a choice point stays on the stack its cursor moves past what it takes up. -/
theorem cursor_lt (takes : a.TakesUp depth id) (found : pointAt depth a.stack = some P)
    (known : P.keys = some keys) (later : Relation.TransGen (m.Proceeds depth) a b) :
    ∃ Q, pointAt depth b.stack = some Q ∧ P.Ahead Q ∧ P.cursor < Q.cursor := by
  induction later with
  | single first =>
    obtain ⟨Q, at', ahead, less⟩ := first.ahead found known
    exact ⟨Q, at', ahead, less id takes⟩
  | tail _ last ih =>
    obtain ⟨Q, at', ahead, less⟩ := ih
    obtain ⟨R, at'', further, -⟩ := last.ahead at' (ahead.keys.trans known)
    exact ⟨R, at'', ⟨further.keys.trans ahead.keys, further.candidates.trans ahead.candidates,
      ahead.cursor_le.trans further.cursor_le⟩, less.trans_le further.cursor_le⟩

theorem LoadedFrom.remembers_of_passes
    (loaded : m.LoadedFrom settings (rules ++ [query]) symbols) (session : m.Session cs stack s)
    (kept : Nested (Made.Recalls m.program) m.store stack s)
    (passes : m.program.Passes m.queryHead (.choosing stack s) a) :
    m.program.Marked m.store a ∧ m.program.Remembers m.store a := by
  have start : m.program.Marked m.store (.choosing stack s) ∧
      m.program.Remembers m.store (.choosing stack s) := ⟨loaded.nested session, kept⟩
  refine Program.Passes.keeps
    (I := fun a => m.program.Marked m.store a ∧ m.program.Remembers m.store a)
    (fun both turn => ?_) start passes
  exact ⟨both.1.turn loaded.placed loaded.static.symm loaded.steady turn, both.2.turn both.1 turn⟩

/-- Between two calls everything kept is true, unless an answer was left in place. -/
theorem LoadedFrom.recalls (loaded : m.LoadedFrom settings (rules ++ [query]) symbols)
    (session : m.Session cs stack s) (undone : .step ∉ cs) :
    Nested (Made.Recalls m.program) m.store stack s := by
  have start : Nested (Made.Recalls m.program) m.store [⟨m.startPoint 0, m.store⟩] m.store :=
    ⟨.fresh .., rfl⟩
  induction session with
  | loaded => exact start
  | stepped _ _ _ => simp at undone
  | asked session passes back ih =>
    have kept := ih fun earlier => undone (List.mem_append_left _ earlier)
    obtain ⟨marked, remembers⟩ := loaded.remembers_of_passes session kept passes
    obtain rfl := Except.ok.inj (marked.undone.symm.trans back)
    exact remembers
  | exhausted session passes ih =>
    have kept := ih fun earlier => undone (List.mem_append_left _ earlier)
    obtain ⟨⟨rfl, rfl⟩, -⟩ := loaded.remembers_of_passes session kept passes
    rfl
  | restarted session back ih =>
    obtain rfl := loaded.rewound (loaded.nested session) back
    rw [loaded.mark]
    exact start

/-- Whenever a loaded machine that is only asked and restarted looks at a choice point
with keys, computing the keys of its first goal again gives the same keys, and selecting
the candidates for them, with an index or without, gives the same candidates. Each time
the choice point takes up a clause, it is one declared later. -/
theorem keys_stay_valid {text : String}
    (e : ofText settings text = (.ok (.ok m) : Except Halt (Except LoadError Machine)))
    (undone : .step ∉ cs) (during : m.During cs a) :
    (∀ top below s goal rest keys, a = .choosing (top :: below) s →
      top.point.goals = goal :: rest → top.point.keys = some keys →
      Keys.ofRef s.heap goal m.program.settings.positions = .ok keys ∧
        top.point.candidates = m.program.candidatesFor keys) ∧
    ∀ depth id, a.TakesUp depth id → ∀ b id', Relation.TransGen (m.Proceeds depth) a b →
      b.TakesUp depth id' → id < id' := by
  obtain ⟨ss, codes, symbols, -, -, -, loaded⟩ := LoadedFrom.of_ofText e
  obtain ⟨rules, query, rfl⟩ := loaded.exists_last
  obtain ⟨stack, s, session, passes⟩ := during
  obtain ⟨-, remembers⟩ :=
    loaded.remembers_of_passes session (loaded.recalls session undone) passes
  constructor
  · rintro top below s goal rest keys rfl goals known
    exact ⟨remembers.1.keys keys goal rest known goals, remembers.1.candidates keys known⟩
  · intro depth id takes b id' later takes'
    cases a with
    | trying trial s =>
      have here : trial.below.length = depth := takes.1
      have first : trial.top.point.candidates.get? trial.top.point.cursor = some id := takes.2.2
      subst here
      obtain ⟨⟨recalls, -⟩, known⟩ := remembers
      obtain ⟨Q, found, ahead, less⟩ := cursor_lt takes (pointAt_top _ _) known later
      cases b with
      | trying trial' s' =>
        obtain ⟨there, -, second⟩ := takes'
        have top : pointAt trial.below.length (Moment.trying trial' s').stack =
            some trial'.top.point := there ▸ pointAt_top _ _
        obtain rfl := Option.some.inj (top.symm.trans found)
        rw [ahead.candidates] at second
        rw [recalls.candidates _ known, ← Candidates.getElem?_toList] at first second
        obtain ⟨inside, rfl⟩ := List.getElem?_eq_some_iff.mp first
        obtain ⟨inside', rfl⟩ := List.getElem?_eq_some_iff.mp second
        exact List.pairwise_iff_getElem.mp
          (Program.pairwise_candidatesFor loaded.indexed _) _ _ inside inside' less
      | _ => exact takes'.elim
    | _ => exact takes.elim

/-- A choice point that was searched keeps keys that are still exact, and passed over one
clause before the next. -/
theorem keys_stay_valid_searched :
    ∃ (m n : Machine) (a b : Moment) (P : ChoicePoint) (goal : Cell) (rest : List Cell)
      (keys : Keys),
      ofText {} "q a .\np a .\ngo X if p X ." =
        (.ok (.ok m) : Except Halt (Except LoadError Machine)) ∧
      m.calls 9 [.ask] = .ok n ∧ n.stack = [P] ∧ P.goals = goal :: rest ∧ P.keys = some keys ∧
      Keys.ofRef n.store.heap goal m.program.settings.positions = .ok keys ∧
      P.candidates = m.program.candidatesFor keys ∧
      m.program.next m.queryHead (.choosing [⟨m.startPoint 0, m.store⟩] m.store) = .ok a ∧
      m.program.next m.queryHead a = .ok b ∧ a.TakesUp 0 0 ∧ b.TakesUp 0 1 ∧ 0 < 1 := by
  have loads : (ofText {} "q a .\np a .\ngo X if p X ." :
      Except Halt (Except LoadError Machine)).toOption.any (fun r => r.toOption.any fun m =>
        ((m.calls 9 [.ask]).toOption.any fun n => n.stack.length = 1 &&
          n.stack.all fun P => P.keys.isSome && !P.goals.isEmpty) &&
        (m.program.next m.queryHead (.choosing [⟨m.startPoint 0, m.store⟩] m.store)).toOption.any
          fun a => decide (a.TakesUp 0 0) && (m.program.next m.queryHead a).toOption.any
            fun b => decide (b.TakesUp 0 1)) = true := by
    decide +kernel
  obtain ⟨m, loaded, checks⟩ := exists_loaded loads
  obtain ⟨calls, turns⟩ := Bool.and_eq_true_iff.mp checks
  obtain ⟨n, returned, rests⟩ := exists_ok_of_any calls
  obtain ⟨a, first, turns⟩ := exists_ok_of_any turns
  obtain ⟨takes, turns⟩ := Bool.and_eq_true_iff.mp turns
  obtain ⟨b, second, takes'⟩ := exists_ok_of_any turns
  simp only [Bool.and_eq_true, decide_eq_true_eq] at rests takes takes'
  obtain ⟨ss, codes, symbols, -, -, -, from'⟩ := LoadedFrom.of_ofText loaded
  obtain ⟨rules, query, rfl⟩ := from'.exists_last
  obtain ⟨stack, s, session, rfl⟩ := from'.session returned
  obtain ⟨one, all⟩ := rests
  obtain ⟨q, rfl⟩ := List.length_eq_one_iff.mp ((List.length_map ..).symm.trans one)
  have kept := List.all_eq_true.mp all q.point (List.mem_singleton.mpr rfl)
  rw [Bool.and_eq_true, Bool.not_eq_true', List.isEmpty_eq_false_iff] at kept
  obtain ⟨found, goals⟩ := kept
  obtain ⟨goal, rest, goals⟩ := List.exists_cons_of_ne_nil goals
  obtain ⟨keys, known⟩ := Option.isSome_iff_exists.mp found
  obtain ⟨exact, same⟩ := (keys_stay_valid loaded (by decide) ⟨[q], s, session, .refl⟩).1
    q [] s goal rest keys rfl goals known
  have less := (keys_stay_valid loaded (by decide) ⟨_, _, .loaded, .single first⟩).2
    0 0 takes b 1 (.single ⟨.inl second, ?_⟩) takes'
  · exact ⟨m, _, a, b, q.point, goal, rest, keys, loaded, returned, rfl, goals, known, exact, same,
      first, second, takes, takes', less⟩
  · cases b with
    | trying => exact Nat.zero_lt_succ _
    | _ => exact takes'.elim

end Machine

end HornMachine
