import HornMachine.Proofs.Lifting
import HornMachine.Proofs.UncalledSearch

/-!
# Nothing that is derivable is lost

A branch covers a given instance of the query when its heap has a solution that
agrees with the instance, its goals stand for derivable trees, and a rule by which
the first of them is derivable is still pending. Such a branch cannot be spent, and
a turn passes the instance on: to what is left of the branch if another rule was
used, otherwise to the next goals or the answer. So a search that ends has answered
every derivable instance.
-/
namespace HornMachine

namespace Program

variable {p : Program} {w : Codes} {s : Nat} {t : Symbols} {rules : List Sentence}
  {v₀ v : Nat → Term} {queryHead : Cell} {floor u : Store} {b : Branch} {bs bs' : List Branch}
  {o : Option (Answer × Store)} {r : Resolution} {left : ChoicePoint}

/-- `v` solves the heap and agrees with `v₀` on the query. -/
structure Agrees (w : Codes) (t : Symbols) (v₀ : Nat → Term) (u : Store) (v : Nat → Term) :
    Prop where
  consistent : u.heap.Consistent t w.floor v
  query : ∀ a, a < w.floor + w.query.size → v a = v₀ a

/-- The instance `v₀` of the query is still to be found on the branch. -/
structure Covers (p : Program) (w : Codes) (t : Symbols) (rules : List Sentence)
    (v₀ : Nat → Term) (b : Branch) (v : Nat → Term) : Prop where
  agrees : Agrees w t v₀ b.store v
  goals : ∀ g ∈ b.point.goals, Derivable rules (b.store.heap.treeOf t v g)
  pending : ∀ goal rest keys, b.point.goals = goal :: rest →
    Keys.ofRef b.store.heap goal p.settings.positions = .ok keys →
    ∃ id ∈ (p.keyed keys b.point).pending, ∃ code head body σ,
      w.Instance t rules id code head body σ (b.store.heap.treeOf t v goal)

/-- A branch that stays clear of the query, and that changes nothing if it has no
goals. -/
structure Guarded (p : Program) (w : Codes) (s : Nat) (b : Branch) : Prop where
  clear : p.Clear w s b
  barren : b.point.goals = [] → b.store.restore b.point.trailMark b.point.base = .ok b.store

theorem Guarded.turn (runs : p.Runs w) (uncalled : Uncalled w s) (guarded : p.Guarded w s b)
    (some : b.point.hasGoals = true) (e : p.Unfolds queryHead b r left u) :
    p.Guarded w s ⟨left, b.store⟩ ∧ ∀ next, r = .advanced next → p.Guarded w s ⟨next, u⟩ := by
  obtain ⟨below, atop⟩ := guarded.clear.atop
  obtain ⟨kept, advanced⟩ := guarded.clear.turn runs uncalled some e
  constructor
  · obtain ⟨goal, rest, keys, ids, -, -, -, rfl⟩ := e.scanned runs.placed atop some
    exact ⟨kept, guarded.barren⟩
  · intro next same
    subst same
    obtain ⟨goal, rest, keys, before, id, ids, c, used⟩ := e.used runs.placed atop some nofun
    obtain ⟨more, rfl⟩ := resolution_eq_advanced.mp used.result.symm
    exact ⟨advanced _ rfl, fun none => absurd none more⟩

/-- A fresh choice point has all rules pending that are needed. -/
theorem Covers.fresh {head : Cell} {base mark : Nat} {goals : List Cell} (indexed : p.Indexed)
    (runs : p.Runs w) (made : w.MadeFrom t rules) (tame : Tame w s u.heap goals)
    (agrees : Agrees w t v₀ u v) (derivable : ∀ g ∈ goals, Derivable rules (u.heap.treeOf t v g)) :
    p.Covers w t rules v₀ ⟨.fresh head base goals mark p.clauses.size, u⟩ v where
  agrees := agrees
  goals := derivable
  pending goal rest keys split exact := by
    change goals = goal :: rest at split
    subst split
    obtain ⟨id, code, first, body, σ, inst⟩ :=
      made.exists_instance (derivable goal (List.mem_cons_self ..))
    have admitted := inst.admits made tame.safe tame.head.term tame.head.tag agrees.consistent rfl
      exact
    have found := runs.clause id code inst.rule
    have inside := (Array.getElem?_eq_some_iff.mp found).choose
    obtain ⟨selected, candidates, complete⟩ := exists_selected indexed keys
    refine ⟨id, ?_, code, first, body, σ, inst⟩
    change id ∈ (p.candidatesFor keys).toList.drop 0
    rw [List.drop_zero, candidates, List.mem_filter]
    exact ⟨List.mem_range.mpr inside, complete id _ found admitted⟩

theorem Covers.not_spent (runs : p.Runs w) (made : w.MadeFrom t rules) (clear : p.Clear w s b)
    (some : b.point.hasGoals = true) (covers : p.Covers w t rules v₀ b v) :
    ¬ p.Spent queryHead b := by
  intro spent
  obtain ⟨below, atop⟩ := clear.atop
  have clauses : 0 < p.clauses.size := by
    rw [runs.size]
    exact Nat.succ_pos _
  obtain ⟨goal, rest, keys, goals, exact, all⟩ := spent.refuted runs.placed clauses atop some
  obtain ⟨id, pending, code, head, body, σ, inst⟩ := covers.pending goal rest keys goals exact
  have tame := clear.tame
  rw [goals] at tame
  exact inst.not_refuted made runs tame.safe tame.head.term tame.head.tag
    covers.agrees.consistent rfl exact (all id pending)

/-- An instance by a rule that comes later stays covered by the branch. -/
theorem Covers.leaving {goal : Cell} {rest : List Cell} {keys : Keys} {before ids : List Nat}
    {id id' : Nat} {c : Clause} {code : ClauseCode} {head : Element} {body : List Element}
    {σ : String → Term} (covers : p.Covers w t rules v₀ b v)
    (used : p.Used queryHead b r left u goal rest keys before id ids c) (later : id' ∈ ids)
    (inst : w.Instance t rules id' code head body σ (b.store.heap.treeOf t v goal)) :
    p.Covers w t rules v₀ ⟨left, b.store⟩ v where
  agrees := covers.agrees
  goals := by
    obtain rfl := used.left
    exact covers.goals
  pending goal' rest' keys' split exact := by
    have goals : left.goals = b.point.goals := used.left ▸ rfl
    dsimp only at split exact
    rw [goals, used.goals, List.cons.injEq] at split
    obtain ⟨rfl, rfl⟩ := split
    obtain rfl : keys = keys' := Except.ok.inj (used.exact.symm.trans exact)
    exact ⟨id', used.pending_left ▸ later, code, head, body, σ, inst⟩

/-- A turn leaves the instance covered by the branch, or covers it by the goals of
the rule that was used. -/
theorem Covers.used {goal : Cell} {rest : List Cell} {keys : Keys} {before ids : List Nat}
    {id : Nat} {c : Clause} (runs : p.Runs w) (uncalled : Uncalled w s)
    (made : w.MadeFrom t rules) (clear : p.Clear w s b) (covers : p.Covers w t rules v₀ b v)
    (used : p.Used queryHead b r left u goal rest keys before id ids c) :
    p.Covers w t rules v₀ ⟨left, b.store⟩ v ∨ ∃ v', Agrees w t v₀ u v' ∧
      Tame w s u.heap (c.body.map (·.relocate (c.shift b.store)) ++ rest) ∧
      ∀ g ∈ c.body.map (·.relocate (c.shift b.store)) ++ rest,
        Derivable rules (u.heap.treeOf t v' g) := by
  obtain ⟨code, fuel, rule, attempt, tame', same⟩ := used.attempted runs uncalled clear.tame
  have tame := clear.tame
  rw [used.goals] at tame
  have term := tame.head.term
  have consistent := covers.agrees.consistent
  obtain ⟨id', pending, code', head, body, σ, inst⟩ :=
    covers.pending goal rest keys used.goals used.exact
  rw [used.pending, List.mem_append, List.mem_cons] at pending
  rcases pending with skipped | rfl | later
  · exact absurd (used.skipped id' skipped) (inst.not_refuted made runs tame.safe term
      tame.head.tag consistent rfl used.exact)
  · right
    obtain rfl : code' = code := Option.some.inj (inst.rule.symm.trans rule)
    obtain ⟨solved, kept, derived⟩ := inst.attempted made tame.safe (runs.rule_usable rule) term
      consistent rfl attempt
    rw [same]
    refine ⟨_, ⟨solved, fun a below => ?_⟩, tame', fun g member => ?_⟩
    · rw [extension_below (below.trans_le tame.safe.static)]
      exact covers.agrees.query a below
    · rcases List.mem_append.mp member with new | old
      · obtain ⟨g, inside, rfl⟩ := List.mem_map.mp new
        exact derived g inside
      · have listed := List.mem_cons_of_mem goal old
        rw [kept g (tame.spares g listed).term]
        exact covers.goals g (used.goals ▸ listed)
  · exact .inl (covers.leaving used later inst)

/-- A search that starts with a covered instance answers it or leaves it covered. -/
theorem Explored.covered (indexed : p.Indexed) (runs : p.Runs w) (uncalled : Uncalled w s)
    (made : w.MadeFrom t rules) (stacked : p.Stacked floor bs)
    (guarded : ∀ b ∈ bs, p.Guarded w s b) (covered : ∃ b ∈ bs, ∃ v, p.Covers w t rules v₀ b v)
    (e : p.Explored queryHead floor bs o bs') :
    (∃ b ∈ bs', ∃ v, p.Covers w t rules v₀ b v) ∨
      ∃ a u v, o = some (a, u) ∧ Agrees w t v₀ u v := by
  have placed := runs.placed
  induction e with
  | finished =>
    obtain ⟨b, member, -⟩ := covered
    cases member
  | @barren b bs goals =>
    obtain ⟨c, member, v, covers⟩ := covered
    rcases List.mem_cons.mp member with rfl | later
    · have none : c.point.goals = [] := by simpa [ChoicePoint.hasGoals] using goals
      have back := (guarded c member).barren none
      rw [stacked.1.restore, Except.ok.injEq] at back
      refine .inr ⟨_, _, v, rfl, ?_⟩
      rw [back]
      exact covers.agrees
    · exact .inl ⟨c, later, v, covers⟩
  | @dropped b bs bs' o goals spent _ ih =>
    obtain ⟨c, member, v, covers⟩ := covered
    obtain ⟨here, rest⟩ := List.forall_mem_cons.mp guarded
    rcases List.mem_cons.mp member with rfl | later
    · exact absurd spent (covers.not_spent runs made here.clear goals)
    · exact ih stacked.2 rest ⟨c, later, v, covers⟩
  | @descended b bs bs' o next left u goals clauses turn _ ih =>
    obtain ⟨c, member, v, covers⟩ := covered
    obtain ⟨here, rest⟩ := List.forall_mem_cons.mp guarded
    obtain ⟨kept, advanced⟩ := here.turn runs uncalled goals turn
    apply ih (stacked.descend placed goals turn)
      (List.forall_mem_cons.mpr ⟨advanced next rfl, List.forall_mem_cons.mpr ⟨kept, rest⟩⟩)
    rcases List.mem_cons.mp member with rfl | later
    · obtain ⟨goal, rest, keys, before, id, ids, cl, used⟩ :=
        turn.used placed stacked.1 goals (by simp)
      obtain ⟨-, rfl⟩ := resolution_eq_advanced.mp used.result.symm
      rcases covers.used runs uncalled made here.clear used with left | ⟨v', agrees, tame, all⟩
      · exact ⟨_, List.mem_cons_of_mem _ (List.mem_cons_self ..), v, left⟩
      · exact ⟨_, List.mem_cons_self .., v', .fresh indexed runs made tame agrees all⟩
    · exact ⟨c, List.mem_cons_of_mem _ (List.mem_cons_of_mem _ later), v, covers⟩
  | @answered b bs a left u goals clauses turn =>
    obtain ⟨c, member, v, covers⟩ := covered
    rcases List.mem_cons.mp member with rfl | later
    · have here := guarded c member
      obtain ⟨goal, rest, keys, before, id, ids, cl, used⟩ :=
        turn.used placed stacked.1 goals (by simp)
      rcases covers.used runs uncalled made here.clear used with left | ⟨v', agrees, -⟩
      · exact .inl ⟨_, List.mem_cons_self .., v, left⟩
      · exact .inr ⟨_, _, v', rfl, agrees⟩
    · exact .inl ⟨c, List.mem_cons_of_mem _ later, v, covers⟩

/-- When asking comes to nothing, a covered instance was answered before. -/
theorem asks_covered {fuel count : Nat} {ts : List (Option Term)} {n : Machine}
    (indexed : p.Indexed) (runs : p.Runs w) (uncalled : Uncalled w s) (made : w.MadeFrom t rules)
    (stacked : p.Stacked floor bs) (guarded : ∀ b ∈ bs, p.Guarded w s b)
    (covered : ∃ b ∈ bs, ∃ v, p.Covers w t rules v₀ b v)
    (e : (p.resting queryHead floor bs).asks fuel count = .ok (ts, n)) (exhausted : none ∈ ts) :
    ∃ i x k a k' v, ts[i]? = some (some x) ∧ none ∉ ts.take i ∧
      (p.resting queryHead floor bs).asks fuel i = .ok (ts.take i, k) ∧
      k.step fuel = .ok (some a, k') ∧ k'.program = p ∧ Agrees w t v₀ k'.store v := by
  have placed := runs.placed
  induction count generalizing bs ts with
  | zero =>
    cases e
    cases exhausted
  | succ count ih =>
    obtain ⟨⟨first, k⟩, asked, e⟩ := Halt.bind_eq_ok.mp e
    obtain ⟨⟨others, k'⟩, again, e⟩ := Halt.bind_eq_ok.mp e
    cases e
    have whole := asked
    obtain ⟨o, mid, explored, told, stepped, rfl⟩ := ask_resting placed stacked asked
    rcases explored.covered indexed runs uncalled made stacked guarded covered with
      later | ⟨a, u, v, rfl, agrees⟩
    · obtain _ | ⟨a, u⟩ := o
      · obtain ⟨b, member, -⟩ := later
        rw [explored.nothing_left rfl] at member
        cases member
      · obtain ⟨x, -, rfl⟩ := told
        have rest : none ∈ others := by simpa using exhausted
        obtain ⟨i, y, k, a, k', v, found, before, here, step, same, agrees⟩ :=
          ih (explored.stacked placed stacked).1
            (explored.forall_branches (fun guarded some e => guarded.turn runs uncalled some e)
              guarded) later again rest
        refine ⟨i + 1, y, k, a, k', v, found, ?_, ?_, step, same, agrees⟩
        · simpa using before
        · exact Halt.bind_eq_ok.mpr ⟨_, whole, Halt.bind_eq_ok.mpr ⟨_, here, rfl⟩⟩
    · obtain ⟨x, -, rfl⟩ := told
      exact ⟨0, x, _, a, _, v, rfl, List.not_mem_nil, rfl, stepped, rfl, agrees⟩

end Program

/-- What a loaded machine starts from covers every derivable instance of the query. -/
theorem Machine.LoadedFrom.covers {m : Machine} {settings : Settings} {t : Symbols}
    {codes : List ClauseCode} {query : ClauseCode} {s : Nat} {rules : List Sentence}
    {head : Element} {body : List Element} {σ : String → Term} {below : Heap}
    (loaded : m.LoadedFrom settings (codes ++ [query]) t)
    (uncalled : Uncalled ⟨codes, query, t.count⟩ s)
    (made : Codes.MadeFrom ⟨codes, query, t.count⟩ t rules) (renders : Renders t (head :: body) query)
    (solves : ∀ e ∈ body, Element.Solves σ e)
    (derivable : ∀ e ∈ body, isEquation e = false → Derivable rules (Element.tree σ e))
    (top : below.top = Codes.floor ⟨codes, query, t.count⟩)
    (copied : query.Copied query.size below m.store.heap) :
    m.program.Covers ⟨codes, query, t.count⟩ t rules
      (extension (head :: body) σ below.top fun _ => .array []) m.start
      (extension (head :: body) σ below.top fun _ => .array []) := by
  obtain ⟨runs, -⟩ := loaded.runs
  have cut := runs.queryUsable.linked.cut_size
  obtain ⟨first, rest, list, goal⟩ := renders.head
  obtain ⟨rfl, rfl⟩ := List.cons.inj list
  have solves : ∀ e ∈ head :: body, Element.Solves σ e :=
    List.forall_mem_cons.mpr ⟨Element.solves_of_not_equation σ goal, solves⟩
  have empty {a : Nat} {c : Cell} (above : Codes.floor ⟨codes, query, t.count⟩ ≤ a)
      (found : below.get? a = some c) : False := by
    have inside := Heap.lt_top_of_get? found
    omega
  have closed : below.Closed (Codes.floor ⟨codes, query, t.count⟩) t.count :=
    fun _ _ above found => (empty above found).elim
  have consistent : below.Consistent t (Codes.floor ⟨codes, query, t.count⟩)
      fun _ => .array [] := fun _ _ above found => (empty above found).elim
  have agrees := renders.consistent_extension loaded.sound copied cut
    (loaded.small query (by simp)) closed solves consistent
  refine .fresh loaded.indexed runs made (loaded.tame uncalled) ⟨agrees, fun _ _ => rfl⟩ ?_
  intro g member
  rw [runs.query, ClauseCode.clauseAt, ← top] at member
  obtain ⟨g, inside, rfl⟩ := List.mem_map.mp member
  obtain ⟨e, listed, plain, tree⟩ := renders.body_tree copied cut
    (reads_extension (head :: body) σ below.top _) inside
  rw [tree]
  exact derivable e listed plain

/-- As long as the query is not called, a search that comes to an end has answered
every derivable instance of the query: when that answer was returned, the heap had a
solution that reads the query as the instance does. -/
theorem Machine.answered_of_derivable {settings : Settings} {text : String} {ss : List Sentence}
    {query : Sentence} {head : Element} {body : List Element} {σ : String → Term} {m n : Machine}
    {work count : Nat} {ts : List (Option Term)} (read : readProgram text = .ok ss)
    (uncalled : queryUncalled ss = true) (last : ss.getLast? = some query)
    (expanded : query.expandLists = .ok (head :: body))
    (solves : ∀ e ∈ body, Element.Solves σ e)
    (derivable : ∀ e ∈ body, isEquation e = false → Derivable ss.dropLast (Element.tree σ e))
    (e : ofText settings text = (.ok (.ok m) : Except Halt (Except LoadError Machine)))
    (asked : m.asks work count = .ok (ts, n)) (exhausted : none ∈ ts) :
    ∃ i x k a k' v, ts[i]? = some (some x) ∧ none ∉ ts.take i ∧
      m.asks work i = .ok (ts.take i, k) ∧ k.step work = .ok (some a, k') ∧
      k'.heap.Consistent k'.symbols m.program.query.base v ∧
      Reads (head :: body) m.program.query.base v σ := by
  obtain ⟨codes, code, t, s, -, rendered, loaded, clear⟩ := exists_uncalled read uncalled e
  obtain ⟨rules, final, rfl, paired, es, expanded', renders⟩ := split_last rendered.flip
  rw [List.getLast?_concat, Option.some.injEq] at last
  subst last
  obtain rfl : es = head :: body := Except.ok.inj (expanded'.symm.trans expanded)
  rw [List.dropLast_concat] at derivable
  have made : Codes.MadeFrom ⟨codes, code, t.count⟩ t rules :=
    ⟨loaded.sound, rfl, paired.flip⟩
  have runs := loaded.runs.1
  obtain ⟨below, top, copied⟩ := loaded.copied
  have covers := loaded.covers clear made renders solves derivable top copied
  have start : ∀ b ∈ [m.start], m.program.Guarded ⟨codes, code, t.count⟩ s b := by
    intro b member
    have here := loaded.clear clear b member
    obtain rfl := List.mem_singleton.mp member
    exact ⟨here, fun _ => loaded.stacked.1.restore⟩
  have asked := (congrArg (Machine.asks · work count) loaded.resting).symm.trans asked
  obtain ⟨i, x, k, a, k', v, found, before, here, step, program, agrees⟩ :=
    Program.asks_covered loaded.indexed runs clear made loaded.stacked start
      ⟨_, List.mem_singleton_self _, _, covers⟩ asked exhausted
  have here := (congrArg (Machine.asks · work i) loaded.resting).trans here
  have base : m.program.query.base = below.top := by
    rw [runs.query, top]
    rfl
  refine ⟨i, x, k, a, k', v, found, before, here, step, ?_, ?_⟩
  · rw [Machine.heap, Machine.symbols, program, loaded.symbols, base, top]
    exact agrees.consistent
  · intro o e i w block found
    have inside := renders.word_lt block found
    rw [base, agrees.query _ (by rw [top]; dsimp only [Codes.floor]; omega)]
    exact reads_extension (head :: body) σ below.top _ o e i w block found

/-- The first fact fails the second goal, and the second one is answered after going
back. -/
theorem Machine.answered_of_derivable_fact :
    ∃ (m n : Machine) (ts : List (Option Term)) (i : Nat) (x : Term) (k : Machine) (a : Answer)
      (k' : Machine) (v : Nat → Term),
      ofText {} "p a .\np b .\nq b .\ngo X if p X and q X ." =
        (.ok (.ok m) : Except Halt (Except LoadError Machine)) ∧
      m.asks 9 2 = .ok (ts, n) ∧ none ∈ ts ∧ ts[i]? = some (some x) ∧ m.asks 9 i = .ok (ts.take i, k) ∧
      k.step 9 = .ok (some a, k') ∧
      k'.heap.Consistent k'.symbols m.program.query.base v ∧
      Reads [[.const "go", .var "X"], [.const "p", .var "X"], [.const "q", .var "X"]]
        m.program.query.base v fun _ => .label "b" := by
  have loads : (ofText {} "p a .\np b .\nq b .\ngo X if p X and q X ." :
      Except Halt (Except LoadError Machine)).toOption.any (fun r =>
        r.toOption.any fun m => (m.asks 9 2).toOption.any fun r => decide (none ∈ r.1)) =
      true := by decide +kernel
  have reads : (readProgram "p a .\np b .\nq b .\ngo X if p X and q X .").toOption.any
      (fun ss => decide (ss = [[[.const "p", .const "a"]], [[.const "p", .const "b"]],
        [[.const "q", .const "b"]],
        [[.const "go", .var "X"], [.const "p", .var "X"], [.const "q", .var "X"]]])) =
      true := by decide +kernel
  obtain ⟨m, loaded, asks⟩ := exists_loaded loads
  obtain ⟨⟨ts, n⟩, asked, checked⟩ := exists_ok_of_any asks
  obtain ⟨ss, read, same⟩ := exists_ok_of_any reads
  have exhausted := of_decide_eq_true checked
  obtain rfl := of_decide_eq_true same
  have fact (name : String) {rules : List Sentence}
      (listed : [[.const name, .const "b"]] ∈ rules) :
      Derivable rules (Element.tree (fun _ => .label "b") [.const name, .const "b"]) :=
    Derivable.rule listed rfl nofun nofun
  obtain ⟨i, x, k, a, k', v, found, -, here, step, consistent, agrees⟩ :=
    answered_of_derivable (σ := fun _ => .label "b") read (by decide) rfl rfl
      (by simp [Element.Solves])
      (fun e member _ => by
        obtain rfl | rfl : e = [.const "p", .var "X"] ∨ e = [.const "q", .var "X"] := by
          simpa using member
        · exact fact "p" (by simp)
        · exact fact "q" (by simp))
      loaded asked exhausted
  exact ⟨m, n, ts, i, x, k, a, k', v, loaded, asked, exhausted, found, here, step, consistent, agrees⟩

end HornMachine
