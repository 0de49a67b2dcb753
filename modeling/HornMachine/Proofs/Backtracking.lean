import HornMachine.Proofs.IndexIndependence
import HornMachine.Proofs.Sessions
import HornMachine.Proofs.Watermarks

/-!
# Backtracking restores exactly

Whatever is called on a loaded machine, the choice points on its stack stay nested
above the store it was loaded with. So going back to any of them gives the store in
which its clause was copied, an answer is undone down to the store its last clause
was copied in, a search that finds nothing more leaves the heap as it was loaded,
and restarting gives back the loaded machine. None of this needs the clauses to be
what they were when they were loaded.
-/
namespace HornMachine

namespace Machine

variable {m n : Machine} {cs : List Call} {stack stack' : List Made} {s t : Store}
  {settings : Settings} {codes rules : List ClauseCode} {query : ClauseCode} {symbols : Symbols}

theorem LoadedFrom.steady (loaded : m.LoadedFrom settings codes symbols) : m.store.Steady where
  rooted := loaded.rooted
  distinct := by
    rw [loaded.trail]
    exact List.nodup_nil
  bound := by
    rw [loaded.trail]
    exact nofun

theorem LoadedFrom.mark (loaded : m.LoadedFrom settings codes symbols) :
    m.store.trail.mark = 0 := by
  rw [loaded.trail]
  rfl

theorem LoadedFrom.atop (loaded : m.LoadedFrom settings codes symbols) :
    Nested Made.Atop m.store [⟨m.startPoint 0, m.store⟩] m.store :=
  ⟨⟨loaded.static, loaded.mark.symm, .refl _, loaded.steady⟩, rfl⟩

theorem LoadedFrom.rewind (loaded : m.LoadedFrom settings codes symbols)
    (nested : Nested Made.Atop m.store stack s) :
    s.restore 0 m.program.staticTop = .ok m.store := by
  rw [loaded.static, ← loaded.mark]
  exact nested.extends_floor.restore

theorem LoadedFrom.rewound (loaded : m.LoadedFrom settings codes symbols)
    (nested : Nested Made.Atop m.store stack s)
    (back : s.restore 0 m.program.staticTop = .ok t) : t = m.store :=
  Except.ok.inj (back.symm.trans (loaded.rewind nested))

/-- Throughout a session the choice points are nested. -/
theorem LoadedFrom.marked (loaded : m.LoadedFrom settings (rules ++ [query]) symbols)
    {a : Moment} (during : m.During cs a) : m.program.Marked m.store a := by
  apply During.keeps (I := m.program.Marked m.store) loaded.atop _ _ _ _ during
  · intro cs a b _ marked turn
    exact marked.turn loaded.placed loaded.static.symm loaded.steady turn
  · intro cs o stack s _ marked
    cases o with
    | none =>
      obtain ⟨rfl, rfl⟩ := marked
      rfl
    | some answer => exact marked.1
  · intro cs a origin stack s t _ marked back
    obtain rfl : origin = t := Except.ok.inj (marked.undone.symm.trans back)
    exact marked.2.1
  · intro cs stack s t _ marked back
    obtain rfl := loaded.rewound marked back
    rw [loaded.mark]
    exact loaded.atop

theorem LoadedFrom.nested (loaded : m.LoadedFrom settings (rules ++ [query]) symbols)
    (session : m.Session cs stack s) : Nested Made.Atop m.store stack s :=
  loaded.marked ⟨stack, s, session, .refl⟩

/-! ### Restarting -/

theorem LoadedFrom.restart_paused (loaded : m.LoadedFrom settings codes symbols)
    (nested : Nested Made.Atop m.store stack s) : (m.paused stack s).restart = .ok m := by
  have back : (m.paused stack s).restart =
      .ok (m.paused [⟨m.startPoint m.store.trail.mark, m.store⟩] m.store) := by
    apply Halt.bind_eq_ok.mpr
    refine ⟨m.store, loaded.rewind nested, ?_⟩
    rw [Machine.paused, loaded.queryHead]
    rfl
  rw [loaded.mark] at back
  exact back.trans (congrArg Except.ok loaded.paused.symm)

/-- Restarting gives the machine that was loaded, whatever was called on it and
wherever the calls left it; so it answers what a fresh machine answers. -/
theorem restart_eq_loaded {text : String} {fuel : Nat}
    (e : ofText settings text = (.ok (.ok m) : Except Halt (Except LoadError Machine)))
    (returned : m.calls fuel cs = .ok n) :
    n.restart = .ok m ∧ ∀ more count,
      (n.restart >>= fun fresh => fresh.asks more count) = m.asks more count := by
  obtain ⟨ss, codes, symbols, -, -, -, loaded⟩ := LoadedFrom.of_ofText e
  obtain ⟨rules, query, rfl⟩ := loaded.exists_last
  obtain ⟨stack, s, session, rfl⟩ := loaded.session returned
  have restarted := loaded.restart_paused (loaded.nested session)
  refine ⟨restarted, fun more count => ?_⟩
  rw [restarted]
  rfl

/-- Restarting in the middle of a search, with an answer in place. -/
theorem restart_eq_loaded_step :
    ∃ m n : Machine,
      ofText {} "p a .\np b .\np c .\ngo X if p X ." =
        (.ok (.ok m) : Except Halt (Except LoadError Machine)) ∧
      m.calls 9 [.ask, .step] = .ok n ∧ n.store.trail.mark = 1 ∧ n.restart = .ok m := by
  have loads : (ofText {} "p a .\np b .\np c .\ngo X if p X ." :
      Except Halt (Except LoadError Machine)).toOption.any (fun r =>
        r.toOption.any fun m => (m.calls 9 [.ask, .step]).toOption.any fun n =>
          n.store.trail.mark = 1) = true := by
    decide +kernel
  obtain ⟨m, loaded, calls⟩ := exists_loaded loads
  obtain ⟨n, returned, mark⟩ := exists_ok_of_any calls
  exact ⟨m, n, loaded, returned, of_decide_eq_true mark, (restart_eq_loaded loaded returned).1⟩

end Machine

/-! ### Coming to an answer -/

namespace Program

variable {p : Program} {queryHead : Cell} {floor s t origin : Store} {stack points : List Made}
  {answer : Answer} {o : Option (Answer × Store)}

/-- A search comes to an answer by a resolution that leaves no goals, or at a choice
point that has none, as that of a query without body. Its last clause was copied on
top of `origin`. -/
inductive Concludes (p : Program) (queryHead : Cell) (a : Moment) (origin : Store) : Prop
  | resolved {trial : Trial} {attempt : Attempt} {s : Store} :
      p.Passes queryHead a (.resolved trial attempt [] s) → trial.rest = [] →
      attempt.origin = origin → Concludes p queryHead a origin
  | held {top : Made} {below : List Made} {s : Store} :
      p.Passes queryHead a (.choosing (top :: below) s) → top.point.goals = [] →
      top.origin = origin → Concludes p queryHead a origin

theorem Passes.concludes (placed : p.Placed) (static : floor.heap.top = p.staticTop)
    (start : floor.Steady) (nested : Nested Made.Atop floor stack s)
    (passes : p.Passes queryHead (.choosing stack s) (.ended (some (answer, origin)) points t)) :
    p.Concludes queryHead (.choosing stack s) origin := by
  generalize last : Moment.ended (some (answer, origin)) points t = b at passes
  induction passes with
  | refl => cases last
  | @tail b c earlier turn ih =>
    subst last
    have marked := Passes.marked placed static start nested earlier
    cases b with
    | ended o points t =>
      cases turn
      exact ih rfl
    | choosing points t =>
      cases Turn.of_next turn with
      | held goals restored =>
        exact .held earlier goals (marked.1.restored restored).symm
    | resolved trial attempt body t =>
      cases Turn.of_next turn with
      | answered rest => exact .resolved earlier rest rfl
    | trying trial t => cases Turn.of_next turn
    | unifying trial attempt work t => cases Turn.of_next turn

end Program

namespace Machine

variable {m n : Machine} {cs : List Call} {text : String} {settings : Settings} {fuel : Nat}
  {codes rules : List ClauseCode} {query : ClauseCode} {symbols : Symbols} {a : Moment}

/-- The copy of a clause with this head began in this store; the query is not copied
but loaded. -/
inductive Began (m : Machine) : Cell → Store → Prop
  | loaded : Began m m.queryHead m.store
  | copied {cs : List Call} {trial trial' : Trial} {attempt : Attempt}
      {work : List (Cell × Cell)} {s t : Store} : m.During cs (.trying trial s) →
      m.program.Turn m.queryHead (.trying trial s) (.unifying trial' attempt work t) →
      Began m attempt.head s

/-- Every origin at a moment is the store in which the copy began. -/
def Traced (m : Machine) (a : Moment) : Prop :=
  (∀ q ∈ a.stack, m.Began q.point.head q.origin) ∧
  match a with
  | .unifying _ attempt _ _ | .resolved _ attempt _ _ => m.Began attempt.head attempt.origin
  | _ => True

theorem Traced.turn {b : Moment} (during : m.During cs a) (traced : m.Traced a)
    (turn : m.program.Turn m.queryHead a b) : m.Traced b := by
  obtain ⟨stack, attempted⟩ := traced
  cases turn with
  | finished => exact ⟨stack, trivial⟩
  | held _ _ => exact ⟨(List.forall_mem_cons.mp stack).2, trivial⟩
  | prepared _ prepared =>
    obtain ⟨candidates, rfl⟩ := Program.point_prepare prepared
    exact ⟨List.forall_mem_cons.mpr (List.forall_mem_cons.mp stack), trivial⟩
  | dropped _ => exact ⟨(List.forall_mem_cons.mp stack).2, trivial⟩
  | exhausted _ => exact ⟨(List.forall_mem_cons.mp stack).2, trivial⟩
  | passed untried =>
    exact ⟨List.forall_mem_cons.mpr (List.forall_mem_cons.mp stack), trivial⟩
  | copied untried candidate found admitted copied =>
    have began := Began.copied during (.copied untried candidate found admitted copied)
    exact ⟨List.forall_mem_cons.mpr (List.forall_mem_cons.mp stack), began⟩
  | unified _ => exact ⟨stack, attempted⟩
  | met _ => exact ⟨stack, attempted⟩
  | clashed _ _ => exact ⟨stack, trivial⟩
  | answered _ => exact ⟨stack, trivial⟩
  | advanced _ => exact ⟨List.forall_mem_cons.mpr ⟨attempted, stack⟩, trivial⟩
  | rests => exact ⟨stack, trivial⟩

/-- The origins a machine remembers are stores that it went through. -/
theorem LoadedFrom.traced (loaded : m.LoadedFrom settings (rules ++ [query]) symbols)
    (during : m.During cs a) : m.Traced a := by
  have start : m.Traced (.choosing [⟨m.startPoint 0, m.store⟩] m.store) := by
    refine ⟨?_, trivial⟩
    intro q member
    rw [List.mem_singleton.mp member, startPoint, ← loaded.queryHead]
    exact .loaded
  apply During.keeps (I := m.Traced) start _ _ _ _ during
  · intro cs a b during traced turn
    exact traced.turn during turn
  · intro cs o stack s _ traced
    exact traced
  · intro cs answer origin stack s t _ traced _
    exact traced
  · intro cs stack s t session _ back
    obtain rfl := loaded.rewound (loaded.nested session) back
    rw [loaded.mark]
    exact start

/-- The machine rests on `stack`, and everything done since one of its choice points
was made can be undone. -/
structure Rewinds (n : Machine) (stack : List Made) : Prop where
  points : stack.map (·.point) = n.stack
  ascending : n.stack.Pairwise fun upper lower =>
    lower.base ≤ upper.base ∧ lower.trailMark ≤ upper.trailMark
  distinct : n.store.trail.addrs.toList.Nodup
  bound : ∀ a ∈ n.store.trail.addrs.toList, ∃ c, n.store.heap.get? a = some c ∧
    (c.isVar = true → c.addr ≠ a)
  restore : ∀ q ∈ stack, n.store.restore q.point.trailMark q.point.base = .ok q.origin

/-- Whatever was called on a loaded machine, it can go back to where the clause of any
choice point was copied. An answer is undone to where its last clause was copied, and
a search that finds none leaves the heap and the trail as they were loaded. -/
theorem backtracks_exactly
    (e : ofText settings text = (.ok (.ok m) : Except Halt (Except LoadError Machine)))
    (returned : m.calls fuel cs = .ok n) :
    ∃ stack, m.Session cs stack n.store ∧ n.Rewinds stack ∧
      (∀ q ∈ stack, m.Began q.point.head q.origin) ∧
      ∀ more x n', n.ask more = .ok (x, n') → match x with
        | some _ => m.program.Concludes m.queryHead (.choosing stack n.store) n'.store ∧
          ∃ head, m.Began head n'.store
        | none => n'.store = m.store ∧ n'.store.trail.isEmpty = true ∧ n'.depth = 0 := by
  obtain ⟨ss, codes, symbols, -, -, -, loaded⟩ := LoadedFrom.of_ofText e
  obtain ⟨rules, query, rfl⟩ := loaded.exists_last
  obtain ⟨stack, s, session, rfl⟩ := loaded.session returned
  have nested := loaded.nested session
  have steady := nested.steady loaded.steady
  have traced := loaded.traced ⟨stack, s, session, .refl⟩
  refine ⟨stack, session, ⟨rfl, nested.ascending, steady.distinct, steady.bound,
    nested.restore⟩, traced.1, ?_⟩
  intro more x n' asked
  obtain ⟨o, stack', t, passes, outcome⟩ := ask_paused asked
  have marked := loaded.marked ⟨stack, s, session, passes⟩
  cases o with
  | none =>
    obtain ⟨rfl, rfl⟩ := outcome
    obtain ⟨rfl, rfl⟩ := marked
    refine ⟨rfl, ?_, rfl⟩
    rw [Machine.paused, loaded.trail]
    rfl
  | some last =>
    obtain ⟨answer, origin⟩ := last
    obtain ⟨found, u, restored, rfl⟩ := outcome
    obtain rfl : origin = u := Except.ok.inj (marked.undone.symm.trans restored)
    obtain ⟨term, rfl⟩ := Option.isSome_iff_exists.mp found
    have concludes := passes.concludes loaded.placed loaded.static.symm loaded.steady nested
    refine ⟨concludes, ?_⟩
    cases concludes with
    | @resolved trial attempt _ passes _ same =>
      have began := (loaded.traced ⟨stack, s, session, passes⟩).2
      exact ⟨attempt.head, same ▸ began⟩
    | @held top _ _ passes _ same =>
      have began := (loaded.traced ⟨stack, s, session, passes⟩).1 top (List.mem_cons_self ..)
      exact ⟨top.point.head, same ▸ began⟩

/-- After two answers the choice point of the query is left, and then none. -/
theorem backtracks_exactly_facts :
    ∃ (m n n' : Machine) (stack : List Made),
      ofText {} "p a .\np b .\ngo X if p X ." =
        (.ok (.ok m) : Except Halt (Except LoadError Machine)) ∧
      m.calls 9 [.ask, .ask] = .ok n ∧ n.depth = 1 ∧ n.Rewinds stack ∧
      n.ask 9 = .ok (none, n') ∧ n'.store = m.store ∧ n'.depth = 0 := by
  have loads : (ofText {} "p a .\np b .\ngo X if p X ." :
      Except Halt (Except LoadError Machine)).toOption.any (fun r =>
        r.toOption.any fun m => (m.calls 9 [.ask, .ask]).toOption.any fun n =>
          n.depth = 1 && (n.ask 9).toOption.any fun r => r.1.isNone) = true := by
    decide +kernel
  obtain ⟨m, loaded, calls⟩ := exists_loaded loads
  obtain ⟨n, returned, rest⟩ := exists_ok_of_any calls
  rw [Bool.and_eq_true, decide_eq_true_eq] at rest
  obtain ⟨⟨x, n'⟩, asked, none⟩ := exists_ok_of_any rest.2
  obtain rfl := Option.isNone_iff_eq_none.mp none
  obtain ⟨stack, -, rewinds, -, later⟩ := backtracks_exactly loaded returned
  obtain ⟨store, -, depth⟩ := later 9 _ n' asked
  exact ⟨m, n, n', stack, loaded, returned, rest.1, rewinds, asked, store, depth⟩

end Machine

end HornMachine
