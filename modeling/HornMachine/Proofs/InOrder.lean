import HornMachine.Proofs.Backtracking
import HornMachine.Proofs.SafeMoments

/-!
# The heap stays in order

Whatever is called on a loaded machine whose query is not called, at every moment
of every search variables refer downwards, references lead to structures that are
complete, and what is on the trail or waits as a goal lies inside the heap. So
nothing outside the heap is ever read or written, and every variable chain ends.

Above the rules the heap is a closed region. The rules below are as they were
loaded, and they form a closed region with it.
-/
namespace HornMachine

theorem Heap.closed_of_image {codes : List ClauseCode} {count : Nat} {h : Heap}
    (usable : ∀ code ∈ codes, code.Usable count) (image : h.toList = imageFrom 0 codes) :
    h.Closed 0 count := by
  induction codes using List.reverseRecOn generalizing h with
  | nil =>
    intro a c _ found
    rw [← getElem?_toList, image] at found
    cases found
  | append_singleton codes code ih =>
    obtain ⟨below, front, copied⟩ := exists_front image
    have closed := ih (fun c member => usable c (List.mem_append_left _ member)) front
    have linked := (usable code (by simp)).linked
    exact copied.closed linked linked.cut_size (Nat.zero_le _) closed

namespace Heap

variable {h k : Heap} {lo count a : Nat} {c : Cell}

/-- A region that went on from a closed heap is closed with what lies below it. -/
theorem Closed.down (closed : h.Closed 0 count) (region : k.Closed lo count)
    (keeps : Keeps lo h k) (low : lo ≤ h.top) : k.Closed 0 count := by
  intro a c _ found element
  by_cases below : a < lo
  · obtain ⟨d, old⟩ := exists_get? (h := h) (a := a) (by omega)
    obtain rfl : c = d := Option.some.inj (found.symm.trans (keeps.below a d below old))
    obtain ⟨term, down⟩ := closed a c (Nat.zero_le _) old element
    have all : Keeps 0 h k := ⟨keeps.value, keeps.element, fun _ _ none => by omega⟩
    exact ⟨term.mono all, down⟩
  · obtain ⟨term, down⟩ := region a c (by omega) found element
    exact ⟨⟨term.element, fun isVar => ⟨Nat.zero_le _, (term.var isVar).2⟩,
      fun tag => ⟨Nat.zero_le _, (term.ref tag).2⟩, term.const⟩, down⟩

end Heap

namespace Store

variable {s t : Store} {goals : List Cell} {count a : Nat} {c : Cell}

/-- The heap, the trail and the goals of a store that is in order. -/
structure InOrder (s : Store) (goals : List Cell) : Prop where
  /-- A variable refers downwards, and one that refers to itself is unbound. -/
  var : ∀ a c, s.heap.get? a = some c → c.isVar = true →
    c.addr ≤ a ∧ (c.addr = a → c.tag = .unboundVar)
  ref : ∀ c, c ∈ s.heap.toList ∨ c ∈ goals → c.tag = .structRef → s.heap.Complete c.addr
  trail : ∀ a ∈ s.trail.addrs.toList, a < s.heap.top
  pending : ∀ g ∈ goals, g.addr < s.heap.top
  /-- Every variable chain ends. -/
  ends : ∀ c, c ∈ s.heap.toList ∨ c ∈ goals → ∃ x, s.heap.deref c = .ok x
  /-- Every structure is read with all its elements. -/
  opens : ∀ c, c ∈ s.heap.toList ∨ c ∈ goals → c.tag = .structRef → ∀ symbols,
    ∃ elements, s.heap.openStructure symbols c.addr = .ok (.block c.addr elements)

/-- A goal that is a reference to a complete structure. -/
def Waits (s : Store) (g : Cell) : Prop := g.tag = .structRef ∧ s.heap.Complete g.addr

theorem InOrder.of_closed (closed : s.heap.Closed 0 count) (steady : s.Steady)
    (waits : ∀ g ∈ goals, s.Waits g) : s.InOrder goals := by
  have stored {c : Cell} (member : c ∈ s.heap.toList) : ∃ a, s.heap.get? a = some c := by
    obtain ⟨a, found⟩ := List.mem_iff_getElem?.mp member
    exact ⟨a, by rwa [Heap.getElem?_toList] at found⟩
  have complete (c : Cell) (there : c ∈ s.heap.toList ∨ c ∈ goals) (tag : c.tag = .structRef) :
      s.heap.Complete c.addr := by
    rcases there with member | goal
    · obtain ⟨a, found⟩ := stored member
      have element := Cell.isElement_of_tag tag (by decide) (by decide)
      exact (closed a c (Nat.zero_le _) found element).1.complete tag
    · exact (waits c goal).2
  refine ⟨?_, complete, ?_, ?_, ?_, ?_⟩
  · intro a c found isVar
    obtain ⟨-, down⟩ := closed a c (Nat.zero_le _) found (Cell.isElement_of_isVar isVar)
    refine ⟨down isVar, fun self => ?_⟩
    rw [steady.rooted a c found isVar self, Cell.tag_var]
  · intro a member
    obtain ⟨c, found, -⟩ := steady.bound a member
    exact Heap.lt_top_of_get? found
  · intro g member
    obtain ⟨n, -, inside⟩ := (waits g member).2
    omega
  · intro c there
    cases isVar : c.isVar with
    | false => exact ⟨c, Heap.deref_of_value isVar⟩
    | true =>
      rcases there with member | goal
      · obtain ⟨a, found⟩ := stored member
        exact closed.exists_deref (closed a c (Nat.zero_le _) found
          (Cell.isElement_of_isVar isVar)).1
      · have value := Cell.not_isVar_of_tag (waits c goal).1 (by decide) (by decide)
        rw [value] at isVar
        cases isVar
  · intro c there tag symbols
    obtain ⟨n, header, inside⟩ := complete c there tag
    exact ⟨_, Heap.openStructure_of_header header inside⟩

theorem Extends.value (e : Extends s t) (found : s.heap.get? a = some c)
    (value : c.isVar = false) : t.heap.get? a = some c := by
  obtain ⟨log, e⟩ := e
  have inside := Heap.lt_top_of_get? found
  by_cases logged : a ∈ log
  · have var := e.unbound a logged inside
    rw [found, Option.some.injEq] at var
    rw [var, Cell.var_isVar] at value
    cases value
  · rw [e.kept a inside logged, found]

theorem Waits.mono {g : Cell} (waits : s.Waits g) (e : Extends s t) : t.Waits g := by
  obtain ⟨tag, n, header, inside⟩ := waits
  exact ⟨tag, n, e.value header (Cell.header_isVar n), inside.trans_le e.top_le⟩

end Store

theorem Tame.waits {w : Codes} {sym : Nat} {s : Store} {goals : List Cell}
    (tame : Tame w sym s.heap goals) : ∀ g ∈ goals, s.Waits g := by
  intro g member
  have spares := tame.spares g member
  exact ⟨spares.tag, spares.term.complete spares.tag⟩

/-! ### Moments -/

/-- The goals that wait at a moment. -/
def Moment.goals (a : Moment) : List Cell :=
  (match a with
    | .resolved _ _ body _ => body
    | _ => []) ++ a.stack.flatMap (·.point.goals)

variable {p : Program} {w : Codes} {sym : Nat} {floor s : Store} {qs : List Made} {a : Moment}

/-- Goals that waited when a choice point was made wait in the store on top. -/
theorem Nested.waits (nested : Nested Made.Atop floor qs s)
    (ready : Nested (Made.Ready p w sym floor) floor qs s) :
    ∀ g ∈ qs.flatMap (·.point.goals), s.Waits g := by
  induction qs generalizing s with
  | nil => exact nofun
  | cons q qs ih =>
    intro g member
    rw [List.flatMap_cons, List.mem_append] at member
    rcases member with here | below
    · exact ready.1.tame.waits g here
    · exact (ih nested.2 ready.2 g below).mono nested.1.extends'

namespace Program

/-- Everything that waits at a moment waits in its store, and this store is safe. -/
theorem Spared.inside (safe : floor.heap.Safe w) (start : floor.Steady)
    (marked : p.Marked floor a) (spared : p.Spared w sym floor a) :
    a.store.heap.Safe w ∧ Heap.Keeps w.floor floor.heap a.store.heap ∧ a.store.Steady ∧
      ∀ g ∈ a.goals, a.store.Waits g := by
  have resting {qs : List Made} {s : Store} (nested : Nested Made.Atop floor qs s)
      (ready : Nested (Made.Ready p w sym floor) floor qs s) :
      s.heap.Safe w ∧ Heap.Keeps w.floor floor.heap s.heap ∧ s.Steady ∧
        ∀ g ∈ qs.flatMap (·.point.goals), s.Waits g :=
    ⟨(ready.safe safe).1, (ready.safe safe).2, nested.steady start, nested.waits ready⟩
  cases a with
  | choosing stack s => exact resting marked spared
  | trying trial s => exact resting marked spared.1
  | unifying trial attempt work s =>
    obtain ⟨nested, -, extends', steady, -⟩ := marked
    obtain ⟨ready, -, code, front, unifies⟩ := spared
    obtain ⟨safe', keeps⟩ := unifies.safe ready.1.tame.safe
    exact ⟨safe', ready.1.keeps.trans keeps, steady,
      fun g member => (nested.waits ready g member).mono extends'⟩
  | resolved trial attempt body s =>
    obtain ⟨nested, extends', steady⟩ := marked
    obtain ⟨ready, tame, keeps⟩ := spared
    refine ⟨tame.safe, ready.1.keeps.trans keeps, steady, fun g member => ?_⟩
    rcases List.mem_append.mp member with new | old
    · exact tame.waits g (List.mem_append_left _ new)
    · exact (nested.waits ready g old).mono extends'
  | ended o stack s =>
    cases o with
    | none =>
      obtain ⟨rfl, rfl⟩ := marked
      exact ⟨safe, .refl _ _, start, nofun⟩
    | some last => exact resting marked.1 spared.1

/-- The store of every moment is in order, with a term of the first store and the
goals that wait. -/
theorem Spared.inOrder {head : Cell} (safe : floor.heap.Safe w) (start : floor.Steady)
    (closed : floor.heap.Closed 0 w.count) (query : floor.Waits head)
    (marked : p.Marked floor a) (spared : p.Spared w sym floor a) :
    a.store.InOrder (head :: a.goals) := by
  obtain ⟨safe', keeps, steady, waits⟩ := spared.inside safe start marked
  have all : ∀ g ∈ head :: a.goals, a.store.Waits g :=
    List.forall_mem_cons.mpr ⟨query.mono marked.extends_floor, waits⟩
  exact .of_closed (closed.down safe'.closed keeps safe.low) steady all

end Program

/-! ### Calls -/

namespace Machine

variable {m n : Machine} {cs ds : List Call} {stack : List Made} {s : Store}
  {settings : Settings} {rules : List ClauseCode} {query : ClauseCode} {symbols : Symbols}
  {sym fuel : Nat} {a : Moment} {e : Halt}

theorem LoadedFrom.head_waits (loaded : m.LoadedFrom settings (rules ++ [query]) symbols) :
    m.store.Waits m.queryHead :=
  ⟨loaded.queryHead_tag, (loaded.queryHead ▸ loaded.head_term).complete loaded.queryHead_tag⟩

theorem LoadedFrom.ready (loaded : m.LoadedFrom settings (rules ++ [query]) symbols)
    (uncalled : Uncalled ⟨rules, query, symbols.count⟩ sym) :
    Nested (Made.Ready m.program ⟨rules, query, symbols.count⟩ sym m.store) m.store
      [⟨m.startPoint 0, m.store⟩] m.store := by
  refine ⟨⟨loaded.tame uncalled, .refl _ _, fun _ => loaded.head_term, nofun, ?_⟩, rfl⟩
  intro i id found
  exact List.mem_range.mp (Candidates.mem_of_get? found)

/-- What holds at the moments of a session in which the query is not called. -/
theorem LoadedFrom.spared (loaded : m.LoadedFrom settings (rules ++ [query]) symbols)
    (uncalled : Uncalled ⟨rules, query, symbols.count⟩ sym) (during : m.During cs a) :
    m.program.Spared ⟨rules, query, symbols.count⟩ sym m.store a := by
  obtain ⟨runs, -⟩ := loaded.runs
  have head := loaded.head_term
  rw [← loaded.queryHead] at head
  apply During.keeps (I := m.program.Spared ⟨rules, query, symbols.count⟩ sym m.store)
    (loaded.ready uncalled) _ _ _ _ during
  · intro cs a b during spared turn
    exact spared.turn runs uncalled loaded.indexed head (loaded.marked during) turn
  · intro cs o stack s during spared
    cases o with
    | none =>
      obtain ⟨rfl, rfl⟩ := loaded.marked during
      rfl
    | some last => exact spared.1
  · intro cs answer origin stack s t during spared back
    obtain rfl : origin = t := Except.ok.inj ((loaded.marked during).undone.symm.trans back)
    exact spared.2.1
  · intro cs stack s t session _ back
    obtain rfl := loaded.rewound (loaded.nested session) back
    rw [loaded.mark]
    exact loaded.ready uncalled

theorem LoadedFrom.fits (loaded : m.LoadedFrom settings (rules ++ [query]) symbols)
    (uncalled : Uncalled ⟨rules, query, symbols.count⟩ sym) (during : m.During cs a) :
    Halt.Fits (m.program.next m.queryHead a) :=
  (loaded.spared uncalled during).fits loaded.runs.1 (loaded.marked during) m.queryHead

theorem LoadedFrom.step_halts (loaded : m.LoadedFrom settings (rules ++ [query]) symbols)
    (uncalled : Uncalled ⟨rules, query, symbols.count⟩ sym) (session : m.Session cs stack s)
    (halted : (m.paused stack s).step fuel = .error e) : e = .unfinished ∨ e = .full := by
  rcases step_paused_error halted with fuel | ⟨a, passes, halts⟩
  · exact .inl fuel
  · rcases loaded.fits uncalled ⟨stack, s, session, passes⟩ with ⟨b, returned⟩ | full
    · rw [halts] at returned
      cases returned
    · rw [halts, Except.error.injEq] at full
      exact .inr full

theorem LoadedFrom.answer_returns (loaded : m.LoadedFrom settings (rules ++ [query]) symbols)
    (uncalled : Uncalled ⟨rules, query, symbols.count⟩ sym) {answer : Answer} {origin : Store}
    (during : m.During cs (.ended (some (answer, origin)) stack s)) :
    (∃ term, (m.paused stack s).readout answer.head = .ok term) ∧
      (m.paused stack s).retract answer = .ok (m.paused stack origin) := by
  have marked := loaded.marked during
  have spared := loaded.spared uncalled during
  have region := (spared.inside loaded.runs.2 loaded.steady marked).1.closed
  refine ⟨region.exists_readout spared.2.2 m.program.symbols, ?_⟩
  apply Halt.bind_eq_ok.mpr
  exact ⟨origin, marked.undone, rfl⟩

/-- A call that does not return ran out of fuel or of room. -/
theorem LoadedFrom.call_halts (loaded : m.LoadedFrom settings (rules ++ [query]) symbols)
    (uncalled : Uncalled ⟨rules, query, symbols.count⟩ sym) (session : m.Session cs stack s)
    {c : Call} (halted : (m.paused stack s).call fuel c = .error e) :
    e = .unfinished ∨ e = .full := by
  cases c with
  | step =>
    rcases Halt.bind_eq_error.mp halted with halted | ⟨r, -, same⟩
    · exact loaded.step_halts uncalled session halted
    · cases same
  | restart =>
    rcases Halt.bind_eq_error.mp halted with halted | ⟨r, -, same⟩
    · rw [loaded.rewind (loaded.nested session)] at halted
      cases halted
    · cases same
  | ask =>
    rcases Halt.bind_eq_error.mp halted with halted | ⟨r, -, same⟩
    · rcases Halt.bind_eq_error.mp halted with halted | ⟨⟨o, between⟩, returned, rest⟩
      · exact loaded.step_halts uncalled session halted
      · obtain ⟨answer, stack', t, passes, rfl, rfl⟩ := step_paused returned
        cases answer with
        | none => cases rest
        | some last =>
          obtain ⟨⟨term, read⟩, back⟩ := loaded.answer_returns uncalled ⟨stack, s, session, passes⟩
          simp only [Option.map_some, read, back, Halt.ok_bind] at rest
          cases rest
    · cases same

/-- Calls that do not all return ran out of fuel or of room. -/
theorem LoadedFrom.calls_halt (loaded : m.LoadedFrom settings (rules ++ [query]) symbols)
    (uncalled : Uncalled ⟨rules, query, symbols.count⟩ sym) (session : m.Session cs stack s)
    (halted : (m.paused stack s).calls fuel ds = .error e) : e = .unfinished ∨ e = .full := by
  induction ds generalizing cs stack s with
  | nil => cases halted
  | cons c ds ih =>
    rcases Halt.bind_eq_error.mp halted with halted | ⟨between, returned, later⟩
    · exact loaded.call_halts uncalled session halted
    · obtain ⟨stack', t, session', rfl⟩ := session.call loaded.queryHead returned
      exact ih session' later

/-- Whatever is called on a loaded machine whose query is not called, the heap, the
trail, the head of the query and the pending goals are in order at every moment of
every search and between the calls. No turn of a search reads or writes outside the
heap, no call does, and none follows a chain that does not end. -/
theorem in_order {text : String} {ss : List Sentence} (read : readProgram text = .ok ss)
    (uncalled : queryUncalled ss = true)
    (e : ofText settings text = (.ok (.ok m) : Except Halt (Except LoadError Machine))) :
    (∀ cs a, m.During cs a →
      a.store.InOrder (m.queryHead :: a.goals) ∧ Halt.Fits (m.program.next m.queryHead a)) ∧
    (∀ fuel cs n, m.calls fuel cs = .ok n →
      n.store.InOrder (n.queryHead :: n.stack.flatMap (·.goals))) ∧
    ∀ fuel cs halt, m.calls fuel cs = .error halt → halt = .unfinished ∨ halt = .full := by
  obtain ⟨rules, query, symbols, sym, -, -, loaded, clear⟩ := exists_uncalled read uncalled e
  have closed := Heap.closed_of_image loaded.usable loaded.image
  have inOrder {cs : List Call} {a : Moment} (during : m.During cs a) :
      a.store.InOrder (m.queryHead :: a.goals) :=
    (loaded.spared clear during).inOrder loaded.runs.2 loaded.steady closed loaded.head_waits
      (loaded.marked during)
  refine ⟨fun cs a during => ⟨inOrder during, loaded.fits clear during⟩, ?_, ?_⟩
  · intro fuel cs n returned
    obtain ⟨stack, s, session, rfl⟩ := loaded.session returned
    have rest := inOrder ⟨stack, s, session, .refl⟩
    rw [paused, List.flatMap_map]
    exact rest
  · intro fuel cs halt halted
    rw [loaded.paused] at halted
    exact loaded.calls_halt clear .loaded halted

/-- A machine that was stepped, restarted and stepped again. -/
theorem in_order_steps :
    ∃ m n : Machine,
      ofText {} "p a .\np b .\ngo X if p X ." =
        (.ok (.ok m) : Except Halt (Except LoadError Machine)) ∧
      m.calls 9 [.step, .step, .restart, .step] = .ok n ∧
      n.store.InOrder (n.queryHead :: n.stack.flatMap (·.goals)) := by
  have loads : (ofText {} "p a .\np b .\ngo X if p X ." :
      Except Halt (Except LoadError Machine)).toOption.any (fun r =>
        r.toOption.any fun m =>
          (m.calls 9 [.step, .step, .restart, .step]).toOption.any fun _ => true) = true := by
    decide +kernel
  have reads : (readProgram "p a .\np b .\ngo X if p X .").toOption.any queryUncalled = true := by
    decide +kernel
  obtain ⟨m, loaded, calls⟩ := exists_loaded loads
  obtain ⟨n, returned, -⟩ := exists_ok_of_any calls
  obtain ⟨ss, read, uncalled⟩ := exists_ok_of_any reads
  exact ⟨m, n, loaded, returned, (in_order read uncalled loaded).2.1 9 _ n returned⟩

end Machine

end HornMachine
