import HornMachine.Proofs.Lockstep
import HornMachine.Proofs.Uncalled
import HornMachine.Proofs.WholeCopies

/-!
# Sparing the query

Every goal of a search is a copy of a body goal, and what it starts with is never
overwritten. So when the query is not called, its keys are ruled out for every
goal, the search uses the rules alone, and it stays inside the region of the
query and the copies above it. A rule is then live for a goal exactly when the
head of its whole copy unifies.
-/
namespace HornMachine

theorem Settings.positions_pos (settings : Settings) : 1 ≤ settings.positions :=
  Nat.le_max_left ..

/-- A goal that starts with a constant or a number other than the symbol `s`. -/
structure Heap.Spares (h : Heap) (lo count s : Nat) (g : Cell) : Prop where
  term : h.IsTerm lo count g
  tag : g.tag = .structRef
  block : ∃ n, h.HasBlock g.addr (n + 1)
  first : ∃ c, h.get? (g.addr + 1) = some c ∧ (c.tag = .constant ∨ c.tag = .number) ∧
    c ≠ .constant s

variable {h k : Heap} {lo count s n : Nat} {g goal : Cell} {code : ClauseCode}

theorem Heap.Spares.mono (spares : h.Spares lo count s g) (keeps : Heap.Keeps lo h k) :
    k.Spares lo count s g where
  term := spares.term.mono keeps
  tag := spares.tag
  block := by
    obtain ⟨n, block⟩ := spares.block
    exact ⟨n, keeps.block block⟩
  first := by
    obtain ⟨c, found, tag, other⟩ := spares.first
    refine ⟨c, keeps.value _ c found ?_, tag, other⟩
    rcases tag with tag | tag <;> exact Cell.not_isVar_of_tag tag (by decide) (by decide)

theorem ClauseCode.Copied.spares (copied : code.Copied code.size h k) (linked : code.Linked count)
    (low : lo ≤ h.top) (member : g ∈ code.goals)
    (first : ∃ c, code.cells[g.addr + 1]? = some c ∧ (c.tag = .constant ∨ c.tag = .number) ∧
      c ≠ .constant s) : k.Spares lo count s (g.relocate h.top) := by
  obtain ⟨tag, n, block⟩ := linked.goal g member
  have inside := block.lt_size
  obtain ⟨term, block'⟩ : k.IsTerm lo count (g.relocate h.top) ∧ _ :=
    copied.refTerm linked.cut_size low tag block (by omega)
  have moved := copied.addr (Cell.isInternalRef_iff.mpr (.inr tag)) block.1 (by omega)
  obtain ⟨c, found, which, other⟩ := first
  refine ⟨term, (Cell.tag_relocate g h.top).trans tag, ⟨n, block'⟩, c, ?_, which, other⟩
  have cell := copied.get? found (lt_size_of_getElem? found)
  rwa [Cell.relocate_of_tag (by tauto), ← Nat.add_assoc, ← moved] at cell

/-- A constant or a number has a key of its own. -/
theorem Key.isAny_word {c : Cell} (tag : c.tag = .constant ∨ c.tag = .number) :
    Key.isAny ⟨c.word⟩ = false := by
  rw [Key.isAny, decide_eq_false_iff_not]
  intro same
  have word : c.word = 0 := congrArg Key.raw same
  have low : c.tag = .unboundVar := by
    rw [Cell.tag, Cell.lowBits, word]
    rfl
  rcases tag with tag | tag <;> simp [tag] at low

/-- The keys of the query rule out every goal that spares it. -/
theorem Heap.Spares.refused (spares : h.Spares lo count s goal) {positions : Nat}
    (positive : 1 ≤ positions) {keys : Keys} (made : Keys.ofRef h goal positions = .ok keys)
    {m : Nat} (block : code.HasBlock code.head.addr (m + 1))
    (small : m + 1 < 2 ^ 60)
    (head : code.cells[code.head.addr + 1]? = some (.constant s)) :
    keys.admits (code.keys code.head positions) = false := by
  obtain ⟨n, block'⟩ := spares.block
  obtain ⟨c, found, tag, other⟩ := spares.first
  have notVar : c.isVar = false := by
    rcases tag with tag | tag <;> exact Cell.not_isVar_of_tag tag (by decide) (by decide)
  let i : Fin maxPositions := ⟨0, by decide⟩
  have first := (Keys.ofRef_eq_ok block').mp made i
  rw [if_pos (by dsimp only [i]; omega)] at first
  obtain ⟨c', x, found', ended, key⟩ := Keys.keyAt_eq_ok.mp first
  obtain rfl : c = c' := Option.some.inj (found.symm.trans found')
  rw [Heap.deref_of_value notVar, Except.ok.injEq] at ended
  subst ended
  have goalKey : keys.get i = ⟨c.word⟩ := by
    unfold Key.ofCell at key
    rcases tag with tag | tag <;>
    · rw [tag] at key
      exact (Halt.pure_eq_ok.mp key).symm
  have headKey : (code.keys code.head positions).get i = ⟨(Cell.constant s).word⟩ := by
    have entry : (code.keys code.head positions).get i =
        if i.val < min (((code.cells[code.head.addr]?).map (·.addr)).getD 0) positions
        then code.keyAt (code.head.addr + 1 + i) else .any := Vector.getElem_ofFn i.isLt
    rw [entry, block.1, Option.map_some, Option.getD_some, Cell.addr_header small,
      if_pos (by dsimp only [i]; omega)]
    unfold ClauseCode.keyAt
    rw [show code.head.addr + 1 + i.val = code.head.addr + 1 from rfl, head]
    dsimp only
    rw [Cell.tag_constant]
  rw [Keys.admits, decide_eq_false_iff_not, not_forall]
  refine ⟨i, ?_⟩
  rw [goalKey, headKey, Key.admits, Key.isAny_word tag, Key.isAny_word (.inl (Cell.tag_constant s))]
  simp only [Bool.or_self, Bool.false_or, decide_eq_true_eq, Key.mk.injEq]
  intro same
  apply other
  cases c
  exact congrArg Cell.mk same

/-! ### Heaps and goals of a search that stays clear of the query -/

/-- A safe heap with goals that spare the query. -/
structure Tame (w : Codes) (s : Nat) (h : Heap) (goals : List Cell) : Prop where
  safe : h.Safe w
  spares : ∀ g ∈ goals, h.Spares w.floor w.count s g

variable {p : Program} {w : Codes} {goals rest : List Cell} {id fuel positions : Nat}
  {keys : Keys} {t : Store}

/-- An attempt that succeeds was not ruled out by the keys. -/
theorem Heap.Safe.admits (safe : h.Safe w) (usable : code.Usable w.count)
    (term : h.IsTerm w.floor w.count goal) (tag : goal.tag = .structRef)
    (made : Keys.ofRef h goal positions = .ok keys)
    (e : code.attempt fuel goal h = .ok (true, k)) :
    keys.admits (code.keys code.head positions) = true := by
  obtain ⟨full, u, whole, unify, -⟩ := ClauseCode.attempt_eq_ok.mp e
  obtain ⟨headTag, m, block⟩ := usable.head_block
  have inside := usable.head_lt.trans_le usable.headLen_le
  have cut := usable.linked.cut_size
  have within := safe.within usable cut inside whole term {}
  obtain ⟨-, n, goalBlock⟩ := term.ref tag
  by_contra refused
  refine within.refuses tag ((Cell.tag_relocate _ _).trans headTag)
    (Keys.ofRef_append whole goalBlock made)
    (whole.keys usable.linked cut safe.low safe.closed headTag block inside positions)
    (by simpa using refused) unify

theorem Tame.head (tame : Tame w s h (goal :: rest)) : h.Spares w.floor w.count s goal :=
  tame.spares goal (List.mem_cons_self ..)

theorem Tame.attempted (tame : Tame w s h (goal :: rest)) (uncalled : Uncalled w s)
    (usable : code.Usable w.count) (member : code ∈ w.rules ++ [w.query])
    (e : code.attempt fuel goal h = .ok (true, k)) :
    Tame w s k (code.body.map (·.relocate h.top) ++ rest) := by
  obtain ⟨safe, full, whole, keeps, -⟩ := tame.safe.attempted usable tame.head.term e
  refine ⟨safe, fun g there => ?_⟩
  rcases List.mem_append.mp there with new | old
  · obtain ⟨g, body, rfl⟩ := List.mem_map.mp new
    have spares := whole.spares usable.linked tame.safe.low (usable.mem_goals body)
      (uncalled.body code member g body)
    exact spares.mono keeps
  · have spares := tame.spares g (List.mem_cons_of_mem _ old)
    exact (spares.mono (.append whole)).mono keeps

theorem Tame.refused (tame : Tame w s h (goal :: rest)) (uncalled : Uncalled w s)
    (usable : w.query.Usable w.count) (positive : 1 ≤ positions)
    (made : Keys.ofRef h goal positions = .ok keys) :
    keys.admits (w.query.keys w.query.head positions) = false := by
  obtain ⟨-, m, block⟩ := usable.head_block
  have small : m + 1 < 2 ^ 60 := by
    have := block.lt_size
    have := tame.safe.static
    have := h.top_lt
    omega
  exact tame.head.refused positive made block small uncalled.head

theorem Tame.not_query (tame : Tame w s h (goal :: rest)) (uncalled : Uncalled w s)
    (usable : w.query.Usable w.count) : w.query.attempt fuel goal h ≠ .ok (true, k) := by
  intro e
  obtain ⟨keys, made⟩ := Keys.exists_ofRef tame.safe.closed tame.head.term tame.head.tag 1
  have admitted := tame.safe.admits usable tame.head.term tame.head.tag made e
  rw [tame.refused uncalled usable (Nat.le_refl 1) made] at admitted
  cases admitted

/-- The live clauses for a goal that spares the query are the rules whose codes
unify with it. -/
theorem Tame.live_iff (tame : Tame w s t.heap (goal :: rest)) (uncalled : Uncalled w s)
    (runs : p.Runs w) (made : Keys.ofRef t.heap goal p.settings.positions = .ok keys) :
    p.Live goal keys t id ↔
      ∃ code, w.rules[id]? = some code ∧ ∃ fuel k, code.attempt fuel goal t.heap = .ok (true, k) := by
  have term := tame.head.term
  constructor
  · rintro ⟨c, found, admitted, fuel, u, resolves⟩
    rcases runs.cases found with ⟨code, rule, rfl⟩ | ⟨-, rfl⟩
    · have usable := runs.rule_usable rule
      exact ⟨code, rule, fuel, u.heap,
        tame.safe.attempt_of_resolves rule usable term resolves⟩
    · have refused := tame.refused uncalled runs.queryUsable p.settings.positions_pos made
      rw [ClauseCode.clauseAt, refused] at admitted
      cases admitted
  · rintro ⟨code, rule, fuel, k, attempted⟩
    have usable := runs.rule_usable rule
    have admitted := tame.safe.admits usable term tame.head.tag made attempted
    have outcome := tame.safe.outcome_of_attempt p.settings.positions rule usable
      term attempted
    obtain ⟨u, -, resolves⟩ := outcome
    exact ⟨_, runs.clause id code rule, admitted, fuel, u, resolves⟩

end HornMachine
