import HornMachine.Proofs.Loading

/-!
# Rules below, query above

The last clause of a program is the query and the others are its rules. The
templates of the rules lie below that of the query, and from the query on the
heap is a closed region: the search only works there, so the rules stay as they
were stored.
-/
namespace HornMachine

section

variable {positions start : Nat} {codes codes' : List ClauseCode}

theorem clausesFrom_append :
    clausesFrom positions start (codes ++ codes') = clausesFrom positions start codes ++
      clausesFrom positions (start + (codes.map (·.size)).sum) codes' := by
  induction codes generalizing start with
  | nil => rfl
  | cons code codes ih =>
    rw [List.cons_append, clausesFrom, ih, clausesFrom, List.cons_append, List.map_cons,
      List.sum_cons, Nat.add_assoc]

theorem imageFrom_append :
    imageFrom start (codes ++ codes') = imageFrom start codes ++
      imageFrom (start + (codes.map (·.size)).sum) codes' := by
  induction codes generalizing start with
  | nil => rfl
  | cons code codes ih =>
    rw [List.cons_append, imageFrom, ih, imageFrom, List.append_assoc, List.map_cons,
      List.sum_cons, Nat.add_assoc]

theorem getElem?_clausesFrom {i : Nat} :
    (clausesFrom positions start codes)[i]? = (codes[i]?).map fun code =>
      code.clauseAt positions (start + ((codes.take i).map (·.size)).sum) := by
  induction codes generalizing start i with
  | nil => rfl
  | cons code codes ih =>
    cases i with
    | zero => rfl
    | succ i =>
      rw [clausesFrom, List.getElem?_cons_succ, ih, List.getElem?_cons_succ, List.take_succ_cons,
        List.map_cons, List.sum_cons]
      cases codes[i]? with
      | none => rfl
      | some code => simp only [Option.map_some, Nat.add_assoc]

/-- The last code lies on top of the others, as if copied there. -/
theorem Heap.exists_front {code : ClauseCode} {h : Heap}
    (image : h.toList = imageFrom 0 (codes ++ [code])) :
    ∃ below : Heap, below.toList = imageFrom 0 codes ∧ code.Copied code.size below h := by
  have front : (h.truncate (codes.map (·.size)).sum).toList = imageFrom 0 codes := by
    rw [toList_truncate, image, imageFrom_append, List.take_left' (by rw [length_imageFrom])]
  refine ⟨_, front, ?_⟩
  have size : (h.truncate (codes.map (·.size)).sum).top = (codes.map (·.size)).sum := by
    rw [← length_toList, front, length_imageFrom]
  rw [ClauseCode.copied_size, front, size, image, imageFrom_append]
  simp [imageFrom]

theorem span_image {h : Heap} {i : Nat} {code : ClauseCode} (image : h.toList = imageFrom 0 codes)
    (found : codes[i]? = some code) :
    h.span ((codes.take i).map (·.size)).sum code.size =
      code.cells.toList.map (·.relocate ((codes.take i).map (·.size)).sum) := by
  obtain ⟨inside, same⟩ := List.getElem?_eq_some_iff.mp found
  have split : codes = codes.take i ++ code :: codes.drop (i + 1) := by
    rw [← same, List.getElem_cons_drop, List.take_append_drop]
  rw [Heap.span, image.trans (congrArg (imageFrom 0) split), imageFrom_append,
    List.drop_left' (by rw [length_imageFrom]), imageFrom,
    List.take_left' (by simp [ClauseCode.size]), Nat.zero_add]

end

/-- The codes of a program: those of its rules, that of its query, and how many
symbols they use. -/
structure Codes where
  rules : List ClauseCode
  query : ClauseCode
  count : Nat

namespace Codes

/-- Where the template of the rule `id` lies. -/
def base (w : Codes) (id : Nat) : Nat := ((w.rules.take id).map (·.size)).sum

/-- Where the template of the query lies, above all rules. -/
def floor (w : Codes) : Nat := (w.rules.map (·.size)).sum

theorem base_add_size_le {w : Codes} {id : Nat} {code : ClauseCode}
    (rule : w.rules[id]? = some code) : w.base id + code.size ≤ w.floor := by
  obtain ⟨inside, same⟩ := List.getElem?_eq_some_iff.mp rule
  have split : w.rules = w.rules.take id ++ code :: w.rules.drop (id + 1) := by
    rw [← same, List.getElem_cons_drop, List.take_append_drop]
  have sum := congrArg (fun codes => (codes.map (·.size)).sum) split
  simp only [List.map_append, List.map_cons, List.sum_append, List.sum_cons] at sum
  unfold base floor
  omega

end Codes

/-- The clauses of the program are those of the codes. -/
structure Program.Runs (p : Program) (w : Codes) : Prop where
  clause : ∀ (id : Nat) (code : ClauseCode), w.rules[id]? = some code →
    p.clauses[id]? = some (code.clauseAt p.settings.positions (w.base id))
  last : p.clauses[w.rules.length]? = some (w.query.clauseAt p.settings.positions w.floor)
  size : p.clauses.size = w.rules.length + 1
  query : p.query = w.query.clauseAt p.settings.positions w.floor
  static : p.staticTop = w.floor + w.query.size
  usable : ∀ code ∈ w.rules, code.Usable w.count
  queryUsable : w.query.Usable w.count

/-- The rules are stored as they were loaded, and the query and all above it form
a closed region. -/
structure Heap.Safe (h : Heap) (w : Codes) : Prop where
  rooted : h.Rooted
  closed : h.Closed w.floor w.count
  static : w.floor + w.query.size ≤ h.top
  template : ∀ (id : Nat) (code : ClauseCode), w.rules[id]? = some code →
    h.span (w.base id) code.size = code.cells.toList.map (·.relocate (w.base id))

variable {p : Program} {w : Codes} {h k : Heap}

theorem Program.Runs.rule_usable (runs : p.Runs w) {id : Nat} {code : ClauseCode}
    (rule : w.rules[id]? = some code) : code.Usable w.count :=
  runs.usable code (List.mem_of_getElem? rule)

theorem Program.Runs.cases (runs : p.Runs w) {id : Nat} {c : Clause}
    (found : p.clauses[id]? = some c) :
    (∃ code, w.rules[id]? = some code ∧
      c = code.clauseAt p.settings.positions (w.base id)) ∨
    (id = w.rules.length ∧ c = w.query.clauseAt p.settings.positions w.floor) := by
  have bound := (Array.getElem?_eq_some_iff.mp found).choose
  rw [runs.size] at bound
  by_cases last : id = w.rules.length
  · rw [last, runs.last, Option.some.injEq] at found
    exact .inr ⟨last, found.symm⟩
  · have rule : w.rules[id]? = some w.rules[id] := List.getElem?_eq_getElem (by omega)
    rw [runs.clause id _ rule, Option.some.injEq] at found
    exact .inl ⟨_, rule, found.symm⟩

theorem Program.Runs.placed (runs : p.Runs w) : p.Placed := by
  intro id c found
  rw [runs.static]
  rcases runs.cases found with ⟨code, rule, rfl⟩ | ⟨-, rfl⟩
  · have below := Codes.base_add_size_le rule
    exact ⟨by dsimp only [ClauseCode.clauseAt]; omega, (runs.rule_usable rule).headLen_le⟩
  · exact ⟨Nat.le_refl _, runs.queryUsable.headLen_le⟩

theorem Heap.Safe.low (safe : h.Safe w) : w.floor ≤ h.top :=
  (Nat.le_add_right ..).trans safe.static

theorem Heap.Safe.mono (safe : h.Safe w) (keeps : Heap.Keeps w.floor h k) (rooted : k.Rooted)
    (closed : k.Closed w.floor w.count) (grown : h.top ≤ k.top) : k.Safe w where
  rooted := rooted
  closed := closed
  static := safe.static.trans grown
  template id code rule := by
    rw [← safe.template id code rule]
    have below := Codes.base_add_size_le rule
    have low := safe.low
    apply List.ext_getElem?
    intro i
    by_cases short : i < code.size
    · obtain ⟨c, found⟩ := Heap.exists_get? (h := h) (a := w.base id + i) (by omega)
      rw [Heap.getElem?_span short, Heap.getElem?_span short, found]
      exact keeps.below _ c (by omega) found
    · rw [List.getElem?_eq_none, List.getElem?_eq_none]
      · rw [Heap.length_span (by omega)]
        omega
      · rw [Heap.length_span (by omega)]
        omega

/-- The query lies on top of the rules, as if copied there. -/
theorem Machine.LoadedFrom.copied {m : Machine} {settings : Settings} {t : Symbols}
    {rules : List ClauseCode} {query : ClauseCode}
    (loaded : m.LoadedFrom settings (rules ++ [query]) t) :
    ∃ below : Heap, below.top = (rules.map (·.size)).sum ∧
      query.Copied query.size below m.store.heap := by
  obtain ⟨below, front, copied⟩ := Heap.exists_front loaded.image
  exact ⟨below, by rw [← Heap.length_toList, front, length_imageFrom], copied⟩

/-- What was loaded are the rules and the query, and the heap is safe. -/
theorem Machine.LoadedFrom.runs {m : Machine} {settings : Settings} {t : Symbols}
    {rules : List ClauseCode} {query : ClauseCode}
    (loaded : m.LoadedFrom settings (rules ++ [query]) t) :
    m.program.Runs ⟨rules, query, t.count⟩ ∧ m.store.heap.Safe ⟨rules, query, t.count⟩ := by
  have list := loaded.clauses
  rw [← loaded.configured, clausesFrom_append] at list
  obtain ⟨below, size, copied⟩ := loaded.copied
  have top : m.store.heap.top = (rules.map (·.size)).sum + query.size := by
    rw [copied.top, size]
  have usable : ∀ code ∈ rules, code.Usable t.count := fun code member =>
    loaded.usable code (List.mem_append_left _ member)
  have queryUsable : query.Usable t.count := loaded.usable query (by simp)
  constructor
  · refine ⟨?_, ?_, ?_, ?_, loaded.static.trans top, usable, queryUsable⟩
    · intro id code rule
      have inside := (List.getElem?_eq_some_iff.mp rule).choose
      rw [← Array.getElem?_toList, list,
        List.getElem?_append_left (by rw [length_clausesFrom]; exact inside),
        getElem?_clausesFrom, rule, Option.map_some, Nat.zero_add]
      rfl
    · rw [← Array.getElem?_toList, list, List.getElem?_append_right (by rw [length_clausesFrom]),
        length_clausesFrom, Nat.sub_self, clausesFrom, List.getElem?_cons_zero, Nat.zero_add]
      rfl
    · rw [← Array.length_toList, list]
      simp [length_clausesFrom, clausesFrom]
    · have found := loaded.query
      rw [Array.back?, ← Array.getElem?_toList, ← Array.length_toList, list] at found
      simpa [clausesFrom, Codes.floor] using found.symm
  · refine ⟨loaded.rooted, ?_, top.ge, ?_⟩
    · have none : below.Closed (rules.map (·.size)).sum t.count := by
        intro a c above found
        have inside := Heap.lt_top_of_get? found
        omega
      exact copied.closed queryUsable.linked queryUsable.linked.cut_size size.ge none
    · intro id code rule
      have inside := (List.getElem?_eq_some_iff.mp rule).choose
      have found : (rules ++ [query])[id]? = some code := by
        rw [List.getElem?_append_left inside, rule]
      have span := span_image loaded.image found
      rwa [List.take_append_of_le_length inside.le] at span

end HornMachine
