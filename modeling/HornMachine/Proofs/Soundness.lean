import HornMachine.Proofs.UncalledSearch

/-!
# Answers follow from the program

On every branch the goals of the query follow from those that are pending: a
valuation that solves the heap and makes the pending goals derivable makes the
goals of the query derivable too. A turn keeps this, since the heap it leaves has
no solutions but those of the copied clause whose head and goal stand for one
tree. When nothing is pending any more, the goals of the query are derivable.
-/
namespace HornMachine

variable {w : Codes} {t : Symbols} {rules : List Sentence} {h k : Heap} {code : ClauseCode}
  {goal : Cell} {id fuel : Nat} {v : Nat → Term}

/-- A goal that was resolved with a rule follows from the goals of its body. -/
theorem Heap.Safe.attempt_sound (safe : h.Safe w) (made : w.MadeFrom t rules)
    (usable : code.Usable w.count) (rule : w.rules[id]? = some code)
    (term : h.IsTerm w.floor w.count goal) (e : code.attempt fuel goal h = .ok (true, k))
    (consistent : k.Consistent t w.floor v)
    (body : ∀ g ∈ code.body, Derivable rules (k.treeOf t v (g.relocate h.top))) :
    h.Consistent t w.floor v ∧ Derivable rules (h.treeOf t v goal) := by
  obtain ⟨full, whole, keeps, solved⟩ :=
    safe.attempt_solved made.sound made.count usable term e
  obtain ⟨before, same⟩ := (solved v).mpr ⟨rfl, consistent⟩
  have list := ClauseCode.copied_size.mp whole
  have below : Heap.Keeps w.floor h full := .append whole
  have cut := usable.linked.cut_size
  refine ⟨(Heap.Grown.append list).consistent below safe.closed before, ?_⟩
  obtain ⟨s, member, es, expanded, renders⟩ := made.sentence rule
  rw [← term.treeOf_keeps below, same]
  refine renders.derivable_head member expanded made.sound whole cut safe.low
    before fun g inside => ?_
  obtain ⟨tag, n, block⟩ := usable.linked.goal g (usable.mem_goals inside)
  have copy : full.IsTerm w.floor w.count (g.relocate h.top) :=
    (whole.refTerm cut safe.low tag block (by have := block.lt_size; omega)).1
  rw [← copy.treeOf_keeps keeps]
  exact body g inside

namespace Program

variable {p : Program} {s : Nat} {queryHead : Cell} {asked : List Cell} {b : Branch}
  {r : Resolution} {left : ChoicePoint} {u : Store}

/-- The goals `asked` follow from what the heap says. -/
def Entailed (t : Symbols) (lo : Nat) (rules : List Sentence) (asked : List Cell) (u : Store) :
    Prop :=
  ∀ v, u.heap.Consistent t lo v → ∀ g ∈ asked, Derivable rules (u.heap.treeOf t v g)

/-- The goals `asked` follow from the goals of the branch. -/
structure Sound (p : Program) (w : Codes) (s : Nat) (t : Symbols) (rules : List Sentence)
    (asked : List Cell) (b : Branch) : Prop where
  clear : p.Clear w s b
  terms : ∀ g ∈ asked, b.store.heap.IsTerm w.floor w.count g
  entails : ∀ v, b.store.heap.Consistent t w.floor v →
    (∀ g ∈ b.point.goals, Derivable rules (b.store.heap.treeOf t v g)) →
    ∀ g ∈ asked, Derivable rules (b.store.heap.treeOf t v g)
  barren : b.point.goals = [] → asked = []

/-- What is asked follows from the goals a turn leaves. -/
theorem Sound.used {goal : Cell} {rest : List Cell} {keys : Keys} {before ids : List Nat}
    {id : Nat} {c : Clause} (runs : p.Runs w) (uncalled : Uncalled w s)
    (made : w.MadeFrom t rules) (sound : p.Sound w s t rules asked b)
    (used : p.Used queryHead b r left u goal rest keys before id ids c) :
    (∀ g ∈ asked, u.heap.IsTerm w.floor w.count g) ∧
      ∀ v, u.heap.Consistent t w.floor v →
        (∀ g ∈ c.body.map (·.relocate (c.shift b.store)) ++ rest,
          Derivable rules (u.heap.treeOf t v g)) →
        ∀ g ∈ asked, Derivable rules (u.heap.treeOf t v g) := by
  obtain ⟨code, fuel, rule, attempt, -, body⟩ := used.attempted runs uncalled sound.clear.tame
  have tame := sound.clear.tame
  rw [used.goals] at tame
  have usable := runs.rule_usable rule
  obtain ⟨-, full, whole, keeps, -⟩ := tame.safe.attempted usable tame.head.term attempt
  have kept : Heap.Keeps w.floor b.store.heap u.heap := .trans (.append whole) keeps
  refine ⟨fun g member => (sound.terms g member).mono kept, ?_⟩
  intro v consistent goals g member
  rw [body] at goals
  obtain ⟨consistent', derived⟩ := tame.safe.attempt_sound made usable rule tame.head.term attempt
    consistent fun g inside => goals _ (List.mem_append_left _ (List.mem_map_of_mem inside))
  rw [(sound.terms g member).treeOf_keeps kept]
  refine sound.entails v consistent' ?_ g member
  rw [used.goals]
  refine List.forall_mem_cons.mpr ⟨derived, fun g inside => ?_⟩
  have later := goals g (List.mem_append_right _ inside)
  rwa [(tame.spares g (List.mem_cons_of_mem _ inside)).term.treeOf_keeps kept] at later

theorem Sound.turn (runs : p.Runs w) (uncalled : Uncalled w s) (made : w.MadeFrom t rules)
    (sound : p.Sound w s t rules asked b) (some : b.point.hasGoals = true)
    (e : p.Unfolds queryHead b r left u) :
    p.Sound w s t rules asked ⟨left, b.store⟩ ∧
      ∀ next, r = .advanced next → p.Sound w s t rules asked ⟨next, u⟩ := by
  obtain ⟨below, atop⟩ := sound.clear.atop
  have placed := runs.placed
  obtain ⟨kept, advanced⟩ := sound.clear.turn runs uncalled some e
  constructor
  · obtain ⟨goal, rest, keys, ids, -, -, -, rfl⟩ := e.scanned placed atop some
    exact ⟨kept, sound.terms, sound.entails, sound.barren⟩
  · intro next same
    subst same
    obtain ⟨goal, rest, keys, before, id, ids, c, used⟩ := e.used placed atop some nofun
    obtain ⟨terms, entails⟩ := sound.used runs uncalled made used
    obtain ⟨more, rfl⟩ := resolution_eq_advanced.mp used.result.symm
    exact ⟨advanced _ rfl, terms, entails, fun none => absurd none more⟩

theorem Sound.answered {a : Answer} (runs : p.Runs w) (uncalled : Uncalled w s)
    (made : w.MadeFrom t rules) (sound : p.Sound w s t rules asked b)
    (some : b.point.hasGoals = true) (e : p.Unfolds queryHead b (.answered a) left u) :
    Entailed t w.floor rules asked u := by
  obtain ⟨below, atop⟩ := sound.clear.atop
  obtain ⟨goal, rest, keys, before, id, ids, c, used⟩ := e.used runs.placed atop some nofun
  obtain ⟨-, entails⟩ := sound.used runs uncalled made used
  have none := (resolution_eq_answered.mp used.result.symm).1
  intro v consistent
  apply entails v consistent
  rw [none]
  exact nofun

end Program

/-- The goals of the query follow from the goals a loaded machine starts with. -/
theorem Machine.LoadedFrom.sound_start {m : Machine} {settings : Settings} {rules : List ClauseCode}
    {query : ClauseCode} {s : Nat} {sentences : List Sentence}
    (loaded : m.LoadedFrom settings (rules ++ [query]) t)
    (uncalled : Uncalled ⟨rules, query, t.count⟩ s) :
    ∀ b ∈ [m.start], m.program.Sound ⟨rules, query, t.count⟩ s t sentences
      m.program.query.body b := by
  intro b member
  have clear := loaded.clear uncalled b member
  obtain rfl := List.mem_singleton.mp member
  exact ⟨clear, fun g inside => (clear.tame.spares g inside).term, fun _ _ goals => goals, id⟩

/-- As long as the query is not called, every instance of an answer is a consequence
of the rules: whatever solves the heap makes the goals of the query derivable. -/
theorem Machine.derivable_of_answer {settings : Settings} {text : String} {ss : List Sentence}
    {m n n' : Machine} {work work' count : Nat} {ts : List (Option Term)} {a : Answer}
    {v : Nat → Term} (read : readProgram text = .ok ss) (uncalled : queryUncalled ss = true)
    (e : ofText settings text = (.ok (.ok m) : Except Halt (Except LoadError Machine)))
    (asked : m.asks work count = .ok (ts, n)) (answered : n.step work' = .ok (some a, n'))
    (consistent : n'.heap.Consistent n'.symbols m.program.query.base v) :
    ∀ g ∈ m.program.query.body, Derivable ss.dropLast (n'.heap.treeOf n'.symbols v g) := by
  obtain ⟨codes, query, t, s, -, rendered, loaded, clear⟩ := exists_uncalled read uncalled e
  obtain ⟨rules, last, rfl, paired, -⟩ := split_last rendered.flip
  rw [List.dropLast_concat]
  have made : Codes.MadeFrom ⟨codes, query, t.count⟩ t rules :=
    ⟨loaded.sound, rfl, paired.flip⟩
  have runs := loaded.runs.1
  have placed := runs.placed
  rw [loaded.resting] at asked
  obtain ⟨bs, before, -, rfl⟩ := Program.Asked.of_asks placed loaded.stacked asked
  obtain ⟨o, bs', explored, found, rfl⟩ :=
    Program.step_resting placed (before.stacked placed loaded.stacked) answered
  obtain ⟨⟨a', u⟩, rfl, -⟩ := Option.map_eq_some_iff.mp found.symm
  have turn {b : Branch} {r : Resolution} {left : ChoicePoint} {u : Store}
      (sound : m.program.Sound ⟨codes, query, t.count⟩ s t rules m.program.query.body b)
      (some : b.point.hasGoals = true) (e : m.program.Unfolds m.queryHead b r left u) :=
    sound.turn runs clear made some e
  have start := before.forall_branches turn (loaded.sound_start clear)
  have entailed : Program.Entailed t (Codes.floor ⟨codes, query, t.count⟩) rules
      m.program.query.body u := by
    refine explored.forall_answers turn (fun sound some e => sound.answered runs clear made some e)
      (fun u sound none => ?_) start rfl
    have goals := sound.barren (by simpa [ChoicePoint.hasGoals] using none)
    rw [goals]
    intro _ _ goal member
    cases member
  have base : m.program.query.base = Codes.floor ⟨codes, query, t.count⟩ := by
    rw [runs.query]
    rfl
  have symbols : m.program.symbols = t := loaded.symbols
  simp only [Machine.heap, Machine.symbols, Option.map_some, Option.getD_some, symbols, base]
    at consistent ⊢
  exact entailed v consistent

/-- After the first answer the second makes the goal stand for the second fact. -/
theorem Machine.derivable_of_answer_second :
    ∃ ss m n n' ts a v, readProgram "p a .\np b .\ngo X if p X ." = .ok ss ∧
      ofText {} "p a .\np b .\ngo X if p X ." =
        (.ok (.ok m) : Except Halt (Except LoadError Machine)) ∧
      m.asks 9 1 = .ok (ts, n) ∧ n.step 9 = .ok (some a, n') ∧
      n'.heap.Consistent n'.symbols m.program.query.base v ∧
      ∀ g ∈ m.program.query.body, Derivable ss.dropLast (n'.heap.treeOf n'.symbols v g) := by
  let v : Nat → Term := fun
    | 7 => .label "go"
    | 10 | 13 => .label "p"
    | _ => .label "b"
  have loads : (ofText {} "p a .\np b .\ngo X if p X ." :
      Except Halt (Except LoadError Machine)).toOption.any (fun r =>
        r.toOption.any fun m => (m.asks 9 1).toOption.any fun r =>
          (r.2.step 9).toOption.any fun s =>
            s.1.isSome && decide (s.2.heap.Consistent s.2.symbols m.program.query.base v)) =
      true := by decide +kernel
  have reads : (readProgram "p a .\np b .\ngo X if p X .").toOption.any queryUncalled = true := by
    decide +kernel
  obtain ⟨m, loaded, asks⟩ := exists_loaded loads
  obtain ⟨⟨ts, n⟩, asked, steps⟩ := exists_ok_of_any asks
  obtain ⟨⟨a, n'⟩, answered, checked⟩ := exists_ok_of_any steps
  obtain ⟨ss, read, uncalled⟩ := exists_ok_of_any reads
  simp only [Bool.and_eq_true, Option.isSome_iff_exists, decide_eq_true_eq] at checked
  obtain ⟨⟨a, rfl⟩, consistent⟩ := checked
  exact ⟨ss, m, n, n', ts, a, v, read, loaded, asked, answered, consistent,
    derivable_of_answer read uncalled loaded asked answered consistent⟩

end HornMachine
