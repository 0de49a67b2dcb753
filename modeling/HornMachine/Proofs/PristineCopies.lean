import HornMachine.Proofs.InOrder

/-!
# What a copy of a clause contains

A clause is copied from its template, and templates are not read-only: the goals of
the query are resolved in its template, so its variables are bound in place, and
what was bound is on the trail. A copy has the cells of the linked code, moved to
where it starts, except where the template is on the trail.

When the query is not called no template that is copied is ever on the trail, and
every use of a clause starts with its own unbound variables. When it is called its
copies contain the bindings made so far.
-/
namespace HornMachine

/-- `k` is `h` with the cells of the code from `start` to `stop` on top of it, as part
of a copy that starts at `top`; cells whose offset is `bound` are left open. No
reference of the code leads out of the copy. -/
structure ClauseCode.Pasted (code : ClauseCode) (start stop top : Nat) (bound : Nat → Prop)
    (h k : Heap) : Prop where
  size : k.top = h.top + (stop - start)
  below : ∀ a, a < h.top → k.get? a = h.get? a
  cell : ∀ i c, start ≤ i → i < stop → ¬ bound i → code.cells[i]? = some c →
    k.get? (top + i) = some (c.relocate top)
  inside : ∀ i c, start ≤ i → i < stop → code.cells[i]? = some c → c.isInternalRef = true →
    top ≤ (c.relocate top).addr ∧ (c.relocate top).addr < top + stop

section

variable {code : ClauseCode} {start stop top base : Nat} {bound : Nat → Prop} {h k : Heap}

/-- Part of a template that is clean where it is not `bound`, copied to the top. -/
theorem ClauseCode.Pasted.of_span
    (copied : k.toList = h.toList ++
      (h.span (base + start) (stop - start)).map (·.relocate (top - base)))
    (le : base ≤ top) (here : h.top = top + start) (ordered : start ≤ stop)
    (inside : base + stop ≤ h.top) (cut : code.Cut stop)
    (clean : ∀ i c, ¬ bound i → code.cells[i]? = some c →
      h.get? (base + i) = some (c.relocate base)) :
    code.Pasted start stop top bound h k := by
  have size : k.top = h.top + (stop - start) := by
    rw [Heap.top_append copied, List.length_map, Heap.length_span (by omega)]
  have limit := k.top_lt
  refine ⟨size, ?_, ?_, ?_⟩
  · intro a below
    rw [Heap.get?_append copied, if_pos below]
  · intro i c low short free found
    have source : (h.span (base + start) (stop - start))[top + i - h.top]? =
        some (c.relocate base) := by
      rw [Heap.getElem?_span (by omega), ← clean i c free found]
      congr 1
      omega
    rw [Heap.get?_append copied, if_neg (by omega), List.getElem?_map, source, Option.map_some,
      Cell.relocate_relocate, Nat.add_sub_cancel' le]
  · intro i c low short found ref
    have target := (cut i c short found).1 ref
    rw [Cell.addr_relocate ref (by omega)]
    omega

theorem ClauseCode.Pasted.exact (pasted : code.Pasted start stop top bound h k)
    (free : ∀ i, i < stop → ¬ bound i) : code.Pasted start stop top (fun _ => False) h k where
  size := pasted.size
  below := pasted.below
  cell i c low short _ found := pasted.cell i c low short (free i short) found
  inside := pasted.inside

end

/-- A turn that appends the cells of a clause from `start` to `stop`. -/
inductive Program.Appends (p : Program) (queryHead : Cell) :
    Moment → Attempt → Nat → Nat → Store → Heap → Prop
  | head {trial trial' : Trial} {attempt : Attempt} {work : List (Cell × Cell)} {s : Store}
      {heap : Heap} :
      p.next queryHead (.trying trial s) = .ok (.unifying trial' attempt work ⟨heap, s.trail⟩) →
      Appends p queryHead (.trying trial s) attempt 0 attempt.clause.headLen s heap
  | body {trial : Trial} {attempt : Attempt} {goals : List Cell} {s : Store} {heap : Heap} :
      p.next queryHead (.unifying trial attempt [] s) =
        .ok (.resolved trial attempt goals ⟨heap, s.trail⟩) →
      Appends p queryHead (.unifying trial attempt [] s) attempt attempt.clause.headLen
        attempt.clause.len s heap

namespace Program

theorem Appends.of_next {p : Program} {queryHead : Cell} {trial trial' : Trial}
    {attempt : Attempt} {work : List (Cell × Cell)} {s t : Store}
    (turn : p.next queryHead (.trying trial s) = .ok (.unifying trial' attempt work t)) :
    p.Appends queryHead (.trying trial s) attempt 0 attempt.clause.headLen s t.heap := by
  cases Turn.of_next turn with
  | copied _ _ _ _ _ => exact .head turn

/-- A number of turns, one after the other. -/
def turns (p : Program) (queryHead : Cell) : Nat → Moment → Except Halt Moment
  | 0, a => .ok a
  | count + 1, a => do p.turns queryHead count (← p.next queryHead a)

theorem Passes.of_turns {p : Program} {queryHead : Cell} {count : Nat} {a b : Moment}
    (turned : p.turns queryHead count a = .ok b) : p.Passes queryHead a b := by
  induction count generalizing a with
  | zero =>
    cases turned
    exact .refl
  | succ count ih =>
    obtain ⟨between, first, later⟩ := Halt.bind_eq_ok.mp turned
    exact .head first (ih later)

end Program

namespace Machine

variable {m : Machine} {cs : List Call} {settings : Settings} {codes rules : List ClauseCode}
  {query : ClauseCode} {symbols : Symbols} {sym id i start stop : Nat} {s t : Store} {a : Moment}
  {attempt : Attempt} {heap : Heap} {c : Cell} {clause : Clause} {code : ClauseCode}

theorem LoadedFrom.exists_code (loaded : m.LoadedFrom settings codes symbols)
    (found : m.program.clauses[id]? = some clause) :
    ∃ code, codes[id]? = some code ∧
      clause = code.clauseAt settings.positions ((codes.take id).map (·.size)).sum := by
  rw [← Array.getElem?_toList, loaded.clauses, getElem?_clausesFrom, Nat.zero_add] at found
  obtain ⟨code, source, same⟩ := Option.map_eq_some_iff.mp found
  exact ⟨code, source, same.symm⟩

/-- A template is as it was stored, except for what is on the trail. -/
theorem LoadedFrom.clean (loaded : m.LoadedFrom settings codes symbols)
    (extends' : m.store.Extends s) (source : codes[id]? = some code)
    (found : code.cells[i]? = some c)
    (free : ((codes.take id).map (·.size)).sum + i ∉ s.trail.addrs.toList) :
    s.heap.get? (((codes.take id).map (·.size)).sum + i) =
      some (c.relocate ((codes.take id).map (·.size)).sum) := by
  obtain ⟨log, e⟩ := extends'
  have entries := e.entries
  rw [loaded.trail, List.nil_append] at entries
  rw [entries] at free
  have short := ClauseCode.lt_size_of_getElem? found
  have stored : m.store.heap.get? (((codes.take id).map (·.size)).sum + i) =
      some (c.relocate ((codes.take id).map (·.size)).sum) := by
    rw [← Heap.getElem?_span short, span_image loaded.image source, List.getElem?_map,
      Array.getElem?_toList, found, Option.map_some]
  rw [e.kept _ (Heap.lt_top_of_get? stored) free, stored]

/-- Every copy has the cells of its code, except where the template is on the trail. -/
theorem LoadedFrom.pasted (loaded : m.LoadedFrom settings (rules ++ [query]) symbols)
    (during : m.During cs a)
    (appends : m.program.Appends m.queryHead a attempt start stop s heap) :
    ∃ code, (rules ++ [query])[attempt.id]? = some code ∧
      code.Pasted start stop attempt.origin.heap.top
        (fun i => attempt.clause.base + i ∈ s.trail.addrs.toList) s.heap heap := by
  have marked := loaded.marked during
  cases appends with
  | head turn =>
    cases Program.Turn.of_next turn with
    | copied untried candidate found admitted copied =>
      have extends' : m.store.Extends s := marked.extends_floor
      have placed := (loaded.placed _ _ found).mono (loaded.static ▸ extends'.top_le)
      obtain ⟨code, source, rfl⟩ := loaded.exists_code found
      have usable := loaded.usable code (List.mem_of_getElem? source)
      have copied := ((Clause.copyHead_eq_ok placed).mp copied).2
      have inside := placed.inside
      have short := placed.head
      refine ⟨code, source, .of_span copied (by dsimp only; omega) rfl (Nat.zero_le _)
        (by dsimp only; omega) usable.cut ?_⟩
      exact fun i c free found => loaded.clean extends' source found free
  | body turn =>
    obtain ⟨nested, found, extends', -, size⟩ := marked
    cases Program.Turn.of_next turn with
    | unified copied =>
      have extends'' := nested.extends_floor.trans extends'
      have low := loaded.static ▸ nested.extends_floor.top_le
      have placed := (loaded.placed _ _ found).mono low
      obtain ⟨code, source, same⟩ := loaded.exists_code found
      have usable := loaded.usable code (List.mem_of_getElem? source)
      have copied := ((Clause.copyBody_eq_ok (t := attempt.origin)
        (placed.mono (by omega))).mp copied).2
      have inside := placed.inside
      have short := placed.head
      have len : attempt.clause.len = code.size := by rw [same, ClauseCode.clauseAt]
      have base : attempt.clause.base =
          (((rules ++ [query]).take attempt.id).map (·.size)).sum := by
        rw [same, ClauseCode.clauseAt]
      refine ⟨code, source, .of_span copied (by omega) size short (by omega)
        (len ▸ usable.linked.cut_size) ?_⟩
      rw [base]
      exact fun i c free found => loaded.clean extends'' source found free

/-- When the query is not called, nothing below its template is ever logged. -/
theorem LoadedFrom.logged_above (loaded : m.LoadedFrom settings (rules ++ [query]) symbols)
    (uncalled : Uncalled ⟨rules, query, symbols.count⟩ sym) (during : m.During cs a) :
    ∀ i ∈ a.store.trail.addrs.toList, (Codes.mk rules query symbols.count).floor ≤ i := by
  intro i member
  by_contra below
  obtain ⟨-, safe⟩ := loaded.runs
  have marked := loaded.marked during
  obtain ⟨-, keeps, steady, -⟩ :=
    (loaded.spared uncalled during).inside safe loaded.steady marked
  obtain ⟨log, e⟩ := marked.extends_floor
  have entries := e.entries
  rw [loaded.trail, List.nil_append] at entries
  have inside : i < m.store.heap.top := by
    have := safe.low
    omega
  have stored := e.unbound i (entries ▸ member) inside
  have kept := keeps.below i _ (by omega) stored
  obtain ⟨c, found, apart⟩ := steady.bound i member
  obtain rfl : c = Cell.var i := Option.some.inj (found.symm.trans kept)
  have bound := m.store.heap.top_lt
  exact apart (Cell.var_isVar i) (Cell.addr_var (by omega))

/-- When the query is not called, every template that is copied lies below it. -/
theorem LoadedFrom.copied_below (loaded : m.LoadedFrom settings (rules ++ [query]) symbols)
    (uncalled : Uncalled ⟨rules, query, symbols.count⟩ sym) (during : m.During cs a)
    (appends : m.program.Appends m.queryHead a attempt start stop s heap) :
    attempt.clause.base + stop ≤ (Codes.mk rules query symbols.count).floor ∧ a.store = s := by
  obtain ⟨runs, -⟩ := loaded.runs
  cases appends with
  | head turn =>
    obtain ⟨-, -, code, front, unifies⟩ := loaded.spared uncalled (during.next turn)
    have below := Codes.base_add_size_le unifies.rule
    have short := (runs.rule_usable unifies.rule).headLen_le
    refine ⟨?_, rfl⟩
    rw [unifies.clause, ClauseCode.clauseAt]
    dsimp only
    omega
  | body turn =>
    obtain ⟨-, -, code, front, unifies⟩ := loaded.spared uncalled during
    refine ⟨?_, rfl⟩
    rw [unifies.clause]
    exact Codes.base_add_size_le unifies.rule

/-- The moment after `count` turns of the first call. -/
def momentAfter (m : Machine) (count : Nat) : Except Halt Moment :=
  m.program.turns m.queryHead count (.choosing [⟨m.startPoint 0, m.store⟩] m.store)

theorem During.of_momentAfter {m : Machine} {count : Nat} {a : Moment}
    (turned : m.momentAfter count = .ok a) : m.During [] a :=
  ⟨_, _, .loaded, .of_turns turned⟩

/-- Whatever was called on a loaded machine, a copy of a clause has the cells of its
linked code, moved to where it starts, except where the template holds a binding that
is on the trail; and no reference leads out of it. When the query is not called there
is no exception. -/
theorem copies_of_code {text : String} {ss : List Sentence} (read : readProgram text = .ok ss)
    (linked : linkAll {} ss = .ok (codes, symbols))
    (e : ofText settings text = (.ok (.ok m) : Except Halt (Except LoadError Machine)))
    (during : m.During cs a)
    (appends : m.program.Appends m.queryHead a attempt start stop s heap) :
    ∃ code, codes[attempt.id]? = some code ∧
      code.Pasted start stop attempt.origin.heap.top
        (fun i => attempt.clause.base + i ∈ s.trail.addrs.toList) s.heap heap ∧
      (queryUncalled ss = true →
        code.Pasted start stop attempt.origin.heap.top (fun _ => False) s.heap heap) := by
  obtain ⟨ss', codes', symbols', read', linked', rendered, loaded⟩ := LoadedFrom.of_ofText e
  obtain rfl : ss = ss' := Except.ok.inj (read.symm.trans read')
  obtain ⟨rfl, rfl⟩ := Prod.mk.inj (Except.ok.inj (linked.symm.trans linked'))
  obtain ⟨rules, query, rfl⟩ := loaded.exists_last
  obtain ⟨code, source, pasted⟩ := loaded.pasted during appends
  refine ⟨code, source, pasted, fun uncalled => pasted.exact fun i short member => ?_⟩
  obtain ⟨rules', query', sym, split, clear⟩ :=
    HornMachine.exists_uncalled uncalled loaded.sound loaded.small rendered
  obtain ⟨rfl, last⟩ := List.append_inj' split rfl
  obtain rfl := List.singleton_inj.mp last
  obtain ⟨below, rfl⟩ := loaded.copied_below clear during appends
  have above := loaded.logged_above clear during _ member
  omega

/-- A rule is copied cell for cell. -/
theorem copies_of_code_rule :
    ∃ (m : Machine) (a : Moment) (attempt : Attempt) (s : Store) (heap : Heap)
      (code : ClauseCode),
      ofText {} "p a .\nr Y if p Y .\ngo X if r X ." =
        (.ok (.ok m) : Except Halt (Except LoadError Machine)) ∧
      m.During [] a ∧
      m.program.Appends m.queryHead a attempt 0 attempt.clause.headLen s heap ∧
      code.Pasted 0 attempt.clause.headLen attempt.origin.heap.top (fun _ => False) s.heap
        heap := by
  have loads : (ofText {} "p a .\nr Y if p Y .\ngo X if r X ." :
      Except Halt (Except LoadError Machine)).toOption.any (fun r => r.toOption.any fun m =>
        (m.momentAfter 2).toOption.any fun a =>
          (m.program.next m.queryHead a).toOption.any fun b =>
            match a, b with
            | .trying _ _, .unifying _ _ _ _ => true
            | _, _ => false) = true := by
    decide +kernel
  have links : (readProgram "p a .\nr Y if p Y .\ngo X if r X .").toOption.any (fun ss =>
      queryUncalled ss && (linkAll {} ss).toOption.any fun _ => true) = true := by
    decide +kernel
  obtain ⟨m, loaded, moments⟩ := exists_loaded loads
  obtain ⟨a, turned, last⟩ := exists_ok_of_any moments
  obtain ⟨b, next, found⟩ := exists_ok_of_any last
  obtain ⟨ss, read, checked⟩ := exists_ok_of_any links
  rw [Bool.and_eq_true] at checked
  obtain ⟨⟨codes, symbols⟩, linked, -⟩ := exists_ok_of_any checked.2
  have during := During.of_momentAfter turned
  cases a with
  | trying trial s =>
    cases b with
    | unifying trial' attempt work t =>
      have appends := Program.Appends.of_next next
      obtain ⟨code, -, -, exact⟩ := copies_of_code read linked loaded during appends
      exact ⟨m, _, attempt, s, t.heap, code, loaded, during, appends, exact checked.1⟩
    | _ => cases found
  | _ => cases found

/-- A program whose query is called while its variable is bound. -/
def callingQuery : String := "s b .\ns a .\nq a .\nq b if go a .\ngo R if s R and q R ."

/-- A copy of the query may start with a constant where its code has an unbound
variable. -/
theorem copy_ne_code :
    ∃ (ss : List Sentence) (codes : List ClauseCode) (symbols : Symbols) (m : Machine)
      (a : Moment) (attempt : Attempt) (s : Store) (heap : Heap) (code : ClauseCode) (c : Cell),
      readProgram callingQuery = .ok ss ∧ linkAll {} ss = .ok (codes, symbols) ∧
      ofText {} callingQuery = (.ok (.ok m) : Except Halt (Except LoadError Machine)) ∧
      m.During [] a ∧
      m.program.Appends m.queryHead a attempt 0 attempt.clause.headLen s heap ∧
      codes[attempt.id]? = some code ∧ 2 < attempt.clause.headLen ∧
      code.cells[2]? = some c ∧
      heap.get? (attempt.origin.heap.top + 2) ≠ some (c.relocate attempt.origin.heap.top) := by
  have loads : (ofText {} callingQuery : Except Halt (Except LoadError Machine)).toOption.any
      (fun r => r.toOption.any fun m => (m.momentAfter 20).toOption.any fun a =>
        (m.program.next m.queryHead a).toOption.any fun b =>
          match a, b with
          | .trying _ _, .unifying _ attempt _ t => decide (attempt.id = 4 ∧
              2 < attempt.clause.headLen ∧
              t.heap.get? (attempt.origin.heap.top + 2) = some (.constant 1))
          | _, _ => false) = true := by
    decide +kernel
  have links : (readProgram callingQuery).toOption.any (fun ss =>
      (linkAll {} ss).toOption.any fun r => r.1[4]?.any fun code =>
        code.cells[2]? = some (.var 2)) = true := by
    decide +kernel
  obtain ⟨m, loaded, moments⟩ := exists_loaded loads
  obtain ⟨a, turned, last⟩ := exists_ok_of_any moments
  obtain ⟨b, next, found⟩ := exists_ok_of_any last
  obtain ⟨ss, read, codes⟩ := exists_ok_of_any links
  obtain ⟨⟨codes, symbols⟩, linked, cells⟩ := exists_ok_of_any codes
  obtain ⟨code, source, cell⟩ := (Option.any_eq_true _ _).mp cells
  have during := During.of_momentAfter turned
  cases a with
  | trying trial s =>
    cases b with
    | unifying trial' attempt work t =>
      obtain ⟨id, inside, bound⟩ := of_decide_eq_true found
      refine ⟨ss, codes, symbols, m, _, attempt, s, t.heap, code, .var 2, read, linked, loaded,
        during, .of_next next, id ▸ source, inside, of_decide_eq_true cell, ?_⟩
      rw [bound]
      intro same
      have tags := congrArg Cell.tag (Option.some.inj same)
      rw [Cell.tag_constant, Cell.tag_relocate, Cell.tag_var] at tags
      cases tags
    | _ => cases found
  | _ => cases found

end Machine

end HornMachine
