import HornMachine.Proofs.Sparing

/-!
# Searching without calling the query

A freshly loaded machine rests on a single branch with the goals of the query.
When the query is not called, every branch that is reached from there has a safe
heap and goals that spare the query, and every turn that leads on is an attempt
with the code of a rule.
-/
namespace HornMachine

/-- The branch a loaded machine starts from. -/
def Machine.start (m : Machine) : Branch where
  point := .fresh m.program.query.head m.program.staticTop m.program.query.body 0
    m.program.clauses.size
  store := m.store

namespace Machine.LoadedFrom

variable {m : Machine} {settings : Settings} {codes : List ClauseCode} {t : Symbols}

theorem resting (loaded : m.LoadedFrom settings codes t) :
    m = m.program.resting m.queryHead m.store [m.start] := by
  have same : m = ⟨m.program, m.store, [m.start.point], m.queryHead⟩ := by
    rw [Machine.start, ← loaded.stack]
  exact same

theorem stacked (loaded : m.LoadedFrom settings codes t) :
    m.program.Stacked m.store [m.start] := by
  refine ⟨⟨loaded.static, ?_, .refl _, loaded.rooted, loaded.static.le, .fresh ..⟩, trivial⟩
  rw [current_nil, loaded.trail]
  rfl

theorem placed {rules : List ClauseCode} {query : ClauseCode}
    (loaded : m.LoadedFrom settings (rules ++ [query]) t) : m.program.Placed :=
  loaded.runs.1.placed

theorem small (loaded : m.LoadedFrom settings codes t) : ∀ code ∈ codes, code.size < 2 ^ 60 := by
  intro code member
  have bound := m.store.heap.top_lt
  have top : m.store.heap.top = (codes.map (·.size)).sum := by
    rw [← Heap.length_toList, loaded.image, length_imageFrom]
  obtain ⟨before, after, rfl⟩ := List.append_of_mem member
  simp only [List.map_append, List.map_cons, List.sum_append, List.sum_cons] at top
  omega

theorem head_term {rules : List ClauseCode} {query : ClauseCode}
    (loaded : m.LoadedFrom settings (rules ++ [query]) t) :
    m.store.heap.IsTerm (rules.map (·.size)).sum t.count m.program.query.head := by
  obtain ⟨below, size, copied⟩ := loaded.copied
  obtain ⟨runs, -⟩ := loaded.runs
  have usable := runs.queryUsable
  obtain ⟨tag, n, block⟩ := usable.head_block
  have term : m.store.heap.IsTerm below.top t.count (query.head.relocate below.top) :=
    (copied.refTerm usable.linked.cut_size (Nat.le_refl _) tag block
      (usable.head_lt.trans_le usable.headLen_le)).1
  rw [size] at term
  rw [runs.query]
  exact term

theorem queryHead_tag {rules : List ClauseCode} {query : ClauseCode}
    (loaded : m.LoadedFrom settings (rules ++ [query]) t) : m.queryHead.tag = .structRef := by
  obtain ⟨runs, -⟩ := loaded.runs
  rw [loaded.queryHead, runs.query, ClauseCode.clauseAt]
  exact (Cell.tag_relocate _ _).trans runs.queryUsable.head_block.1

theorem tame {rules : List ClauseCode} {query : ClauseCode} {s : Nat}
    (loaded : m.LoadedFrom settings (rules ++ [query]) t)
    (uncalled : Uncalled ⟨rules, query, t.count⟩ s) :
    Tame ⟨rules, query, t.count⟩ s m.store.heap m.program.query.body := by
  obtain ⟨runs, safe⟩ := loaded.runs
  obtain ⟨below, size, copied⟩ := loaded.copied
  refine ⟨safe, fun g member => ?_⟩
  rw [runs.query, ClauseCode.clauseAt] at member
  obtain ⟨g, inside, rfl⟩ := List.mem_map.mp member
  have usable := runs.queryUsable
  have spares := copied.spares usable.linked size.ge (usable.mem_goals inside)
    (uncalled.body query (by simp) g inside)
  rw [size] at spares
  exact spares

end Machine.LoadedFrom

theorem Machine.exists_uncalled {settings : Settings} {text : String} {ss : List Sentence}
    {m : Machine} (read : readProgram text = .ok ss) (uncalled : queryUncalled ss = true)
    (e : ofText settings text = (.ok (.ok m) : Except Halt (Except LoadError Machine))) :
    ∃ rules query t s, linkAll {} ss = .ok (rules ++ [query], t) ∧
      List.Forall₂ (fun s code => ∃ es, s.expandLists = .ok es ∧ Renders t es code) ss
        (rules ++ [query]) ∧
      m.LoadedFrom settings (rules ++ [query]) t ∧ Uncalled ⟨rules, query, t.count⟩ s := by
  obtain ⟨ss', codes, t, read', linked, rendered, loaded⟩ := LoadedFrom.of_ofText e
  obtain rfl : ss = ss' := Except.ok.inj (read.symm.trans read')
  obtain ⟨rules, query, s, rfl, clear⟩ :=
    HornMachine.exists_uncalled uncalled loaded.sound loaded.small rendered
  exact ⟨rules, query, t, s, linked, rendered, loaded, clear⟩

namespace Program

variable {p q : Program} {w : Codes} {s : Nat} {queryHead : Cell} {b : Branch} {r : Resolution}
  {left : ChoicePoint} {u : Store}

/-- A branch of a search that stays clear of the query. -/
structure Clear (p : Program) (w : Codes) (s : Nat) (b : Branch) : Prop where
  atop : ∃ below, p.Over below b
  tame : Tame w s b.store.heap b.point.goals

theorem Used.attempted {goal : Cell} {rest : List Cell} {keys : Keys} {before ids : List Nat}
    {id : Nat} {c : Clause} (runs : p.Runs w) (uncalled : Uncalled w s)
    (tame : Tame w s b.store.heap b.point.goals)
    (used : p.Used queryHead b r left u goal rest keys before id ids c) :
    ∃ code fuel, w.rules[id]? = some code ∧
      code.attempt fuel goal b.store.heap = .ok (true, u.heap) ∧
      Tame w s u.heap (code.body.map (·.relocate b.store.heap.top) ++ rest) ∧
      c.body.map (·.relocate (c.shift b.store)) =
        code.body.map (·.relocate b.store.heap.top) := by
  rw [used.goals] at tame
  obtain ⟨fuel, resolves⟩ := used.resolves
  have alive : p.Live goal keys b.store id :=
    ⟨c, used.found, used.admitted, fuel, u, resolves⟩
  obtain ⟨code, rule, -⟩ := (tame.live_iff uncalled runs used.exact).mp alive
  have usable := runs.rule_usable rule
  have same := used.found
  rw [runs.clause id code rule, Option.some.injEq] at same
  subst same
  have attempted := tame.safe.attempt_of_resolves rule usable tame.head.term resolves
  refine ⟨code, fuel, rule, attempted, ?_, body_relocate (tame.safe.base_le rule)⟩
  exact tame.attempted uncalled usable
    (List.mem_append_left _ (List.mem_of_getElem? rule)) attempted

theorem Clear.turn (runs : p.Runs w) (uncalled : Uncalled w s) (clear : p.Clear w s b)
    (some : b.point.hasGoals = true) (e : p.Unfolds queryHead b r left u) :
    p.Clear w s ⟨left, b.store⟩ ∧ ∀ next, r = .advanced next → p.Clear w s ⟨next, u⟩ := by
  obtain ⟨below, atop⟩ := clear.atop
  have placed := runs.placed
  constructor
  · refine ⟨⟨below, atop.leaving placed some e⟩, ?_⟩
    obtain ⟨goal, rest, keys, ids, -, -, -, rfl⟩ := e.scanned placed atop some
    exact clear.tame
  · intro next advanced
    subst advanced
    refine ⟨⟨b.store, atop.next placed some e⟩, ?_⟩
    obtain ⟨goal, rest, keys, before, id, ids, c, used⟩ := e.used placed atop some nofun
    obtain ⟨code, fuel, -, -, tame, body⟩ := used.attempted runs uncalled clear.tame
    obtain ⟨-, rfl⟩ := resolution_eq_advanced.mp used.result.symm
    rw [← body] at tame
    exact tame

theorem Clear.sameLive (runs : p.Runs w) (runs' : q.Runs w) (uncalled : Uncalled w s)
    (clear : p.Clear w s b) : SameLive p q b := by
  intro goal rest keys keys' goals exact exact' id
  have tame := clear.tame
  rw [goals] at tame
  rw [tame.live_iff uncalled runs exact, tame.live_iff uncalled runs' exact']

end Program

theorem Machine.LoadedFrom.clear {m : Machine} {settings : Settings} {t : Symbols}
    {rules : List ClauseCode} {query : ClauseCode} {s : Nat}
    (loaded : m.LoadedFrom settings (rules ++ [query]) t)
    (uncalled : Uncalled ⟨rules, query, t.count⟩ s) :
    ∀ b ∈ [m.start], m.program.Clear ⟨rules, query, t.count⟩ s b := by
  intro b member
  obtain rfl := List.mem_singleton.mp member
  exact ⟨⟨_, loaded.stacked.1⟩, loaded.tame uncalled⟩

end HornMachine
