import HornMachine.Proofs.Resolving

/-!
# Scanning candidates

The candidates of a choice point are read as the list of those still pending,
and trying them in turn is a scan of that list. A clause is refuted when its keys
rule it out or its head clashes with the goal. A scan uses the first clause that
is not refuted and leaves those behind it; a scan that is exhausted has refuted
all. Given enough fuel, every scan that may end does.
-/
namespace HornMachine

def Candidates.toList : Candidates → List Nat
  | .all n => List.range n
  | .only ids => ids.toList

@[simp] theorem Candidates.length_toList (c : Candidates) : c.toList.length = c.size := by
  cases c <;> simp [toList, size]

theorem Candidates.getElem?_toList (c : Candidates) (k : Nat) : c.toList[k]? = c.get? k := by
  cases c with
  | all n =>
    rw [toList, get?]
    split
    · next inside => rw [List.getElem?_range inside]
    · next outside => rw [List.getElem?_eq_none (by simpa using outside)]
  | only ids => simp [toList, get?]

namespace ChoicePoint

/-- Candidates not tried yet, in order. -/
def pending (q : ChoicePoint) : List Nat := q.candidates.toList.drop q.cursor

/-- The choice point with only `left` still pending. -/
def leaving (q : ChoicePoint) (left : List Nat) : ChoicePoint :=
  { q with cursor := q.candidates.size - left.length }

theorem length_pending (q : ChoicePoint) : q.pending.length = q.untried := by
  rw [pending, untried, List.length_drop, Candidates.length_toList]

theorem head?_pending (q : ChoicePoint) : q.pending.head? = q.candidates.get? q.cursor := by
  rw [pending, List.head?_drop, Candidates.getElem?_toList]

theorem pending_next (q : ChoicePoint) :
    { q with cursor := q.cursor + 1 }.pending = q.pending.tail := by
  rw [pending, pending, List.tail_drop]

theorem hasClauses_iff (q : ChoicePoint) : q.hasClauses = true ↔ q.pending ≠ [] := by
  rw [← List.length_pos_iff, length_pending, untried, hasClauses, decide_eq_true_eq]
  omega

theorem pending_leaving {q : ChoicePoint} {left : List Nat} (suffix : left <:+ q.pending) :
    (q.leaving left).pending = left := by
  obtain ⟨before, split⟩ := suffix
  have lengths := congrArg List.length split
  rw [List.length_append, length_pending, untried] at lengths
  have drop : left = q.pending.drop (q.candidates.size - left.length - q.cursor) := by
    rw [← split, List.drop_left' (by omega)]
  by_cases none : left = []
  · subst none
    rw [← List.length_eq_zero_iff, length_pending, untried]
    simp [leaving]
  · have some : 0 < left.length := List.length_pos_iff.mpr none
    have moved : q.cursor + (q.candidates.size - left.length - q.cursor) =
        q.candidates.size - left.length := by omega
    conv_rhs => rw [drop]
    rw [pending, pending, leaving, List.drop_drop, moved]

end ChoicePoint

namespace Program

/-- All templates lie at the bottom of the heap. -/
def Placed (p : Program) : Prop :=
  ∀ (id : Nat) (c : Clause), p.clauses[id]? = some c → c.Placed p.staticTop

/-- Try the clauses numbered `ids` in turn; what is left of the list afterwards. -/
def scan (p : Program) (fuel : Nat) (queryHead goal : Cell) (rest : List Cell) (keys : Keys) :
    List Nat → Store → Except Halt (Resolution × List Nat × Store)
  | [], t => .ok (.exhausted, [], t)
  | id :: ids, t =>
    match p.clauses[id]? with
    | none => .error .outOfRange
    | some c =>
      if keys.admits c.keys then do
        match ← p.resolveWith fuel queryHead goal rest c t with
        | (some r, u) => return (r, ids, u)
        | (none, u) => p.scan fuel queryHead goal rest keys ids u
      else p.scan fuel queryHead goal rest keys ids t

variable {p : Program} {fuel : Nat} {queryHead goal : Cell} {rest : List Cell} {keys : Keys}

theorem tryCandidates_eq_scan {q : ChoicePoint} (within : q.cursor ≤ q.candidates.size)
    (t : Store) :
    p.tryCandidates fuel queryHead goal rest keys q.untried q t =
      p.scan fuel queryHead goal rest keys q.pending t >>= fun
        | (r, left, u) => .ok (r, q.leaving left, u) := by
  induction ids : q.pending generalizing q t with
  | nil =>
    have none : q.untried = 0 := by rw [← q.length_pending, ids, List.length_nil]
    have last : q.leaving [] = q := by
      have : q.candidates.size = q.cursor := by
        unfold ChoicePoint.untried at none
        omega
      simp [ChoicePoint.leaving, this]
    rw [none, tryCandidates, scan, Halt.ok_bind]
    simp only [last]
  | cons id ids' ih =>
    have count : q.untried = ids'.length + 1 := by
      rw [← q.length_pending, ids, List.length_cons]
    have head : q.candidates.get? q.cursor = some id := by
      rw [← q.head?_pending, ids, List.head?_cons]
    have tail : { q with cursor := q.cursor + 1 }.pending = ids' := by
      rw [q.pending_next, ids, List.tail_cons]
    have untried : { q with cursor := q.cursor + 1 }.untried = ids'.length := by
      rw [← ChoicePoint.length_pending, tail]
    have within' : q.cursor + 1 ≤ q.candidates.size := by
      unfold ChoicePoint.untried at count
      omega
    have later := fun t => ih (q := { q with cursor := q.cursor + 1 }) within' t tail
    rw [untried] at later
    rw [count, tryCandidates, head, scan]
    dsimp only
    cases p.clauses[id]? with
    | none => rfl
    | some c =>
      dsimp only
      split
      · rw [bind_assoc]
        refine congrArg _ (funext fun outcome => ?_)
        obtain ⟨o, u⟩ := outcome
        cases o with
        | none => exact later u
        | some r =>
          have cursor : q.candidates.size - ids'.length = q.cursor + 1 := by
            unfold ChoicePoint.untried at count
            omega
          simp [ChoicePoint.leaving, cursor, bind, Except.bind, pure, Except.pure]
      · exact later t

variable {t u : Store} {id : Nat} {ids left : List Nat} {c : Clause} {r : Resolution}

theorem scan_cons_of_not_admits (found : p.clauses[id]? = some c)
    (refused : keys.admits c.keys = false) :
    p.scan fuel queryHead goal rest keys (id :: ids) t =
      p.scan fuel queryHead goal rest keys ids t := by
  simp [scan, found, refused]

theorem scan_cons_of_fails (placed : p.Placed) (static : p.staticTop ≤ t.heap.top)
    (rooted : t.heap.Rooted) (found : p.clauses[id]? = some c) (fails : c.Fails fuel goal t) :
    p.scan fuel queryHead goal rest keys (id :: ids) t =
      p.scan fuel queryHead goal rest keys ids t := by
  have attempt : p.resolveWith fuel queryHead goal rest c t = .ok (none, t) :=
    (resolveWith_eq_none ((placed id c found).mono static) rooted).mpr ⟨rfl, fails⟩
  cases admitted : keys.admits c.keys with
  | false => exact scan_cons_of_not_admits found admitted
  | true => simp [scan, found, admitted, attempt, Halt.ok_bind]

theorem scan_cons_of_resolves (placed : p.Placed) (static : p.staticTop ≤ t.heap.top)
    (rooted : t.heap.Rooted) (found : p.clauses[id]? = some c)
    (admitted : keys.admits c.keys = true) (resolves : c.Resolves fuel goal t u) :
    p.scan fuel queryHead goal rest keys (id :: ids) t =
      .ok (p.resolution queryHead rest c t, ids, u) := by
  have attempt : p.resolveWith fuel queryHead goal rest c t =
      .ok (some (p.resolution queryHead rest c t), u) :=
    (resolveWith_eq_some ((placed id c found).mono static) rooted).mpr ⟨rfl, resolves⟩
  simp [scan, found, admitted, attempt, Halt.ok_bind, pure, Except.pure]

/-- The clause numbered `id` is ruled out by its keys or clashes with the goal. -/
def Refuted (p : Program) (goal : Cell) (keys : Keys) (t : Store) (id : Nat) : Prop :=
  ∃ c, p.clauses[id]? = some c ∧ (keys.admits c.keys = true → ∃ fuel, c.Fails fuel goal t)

/-- How a scan ends: with nothing left, or with the first clause not refuted. -/
inductive Scanned (p : Program) (queryHead goal : Cell) (rest : List Cell) (keys : Keys)
    (t : Store) (ids : List Nat) : Resolution → List Nat → Store → Prop
  | exhausted : (∀ id ∈ ids, p.Refuted goal keys t id) →
      Scanned p queryHead goal rest keys t ids .exhausted [] t
  | used {id fuel : Nat} {c : Clause} {before left : List Nat} {u : Store} :
      ids = before ++ id :: left → (∀ i ∈ before, p.Refuted goal keys t i) →
      p.clauses[id]? = some c → keys.admits c.keys = true → c.Resolves fuel goal t u →
      Scanned p queryHead goal rest keys t ids (p.resolution queryHead rest c t) left u

theorem Scanned.cons (refuted : p.Refuted goal keys t id)
    (later : p.Scanned queryHead goal rest keys t ids r left u) :
    p.Scanned queryHead goal rest keys t (id :: ids) r left u := by
  cases later with
  | exhausted all => exact .exhausted (List.forall_mem_cons.mpr ⟨refuted, all⟩)
  | used split skipped found admitted resolves =>
    exact .used (congrArg (id :: ·) split) (List.forall_mem_cons.mpr ⟨refuted, skipped⟩) found
      admitted resolves

theorem Scanned.of_scan (placed : p.Placed) (static : p.staticTop ≤ t.heap.top)
    (rooted : t.heap.Rooted)
    (e : p.scan fuel queryHead goal rest keys ids t = .ok (r, left, u)) :
    p.Scanned queryHead goal rest keys t ids r left u := by
  induction ids with
  | nil =>
    cases e
    exact .exhausted nofun
  | cons id ids ih =>
    cases found : p.clauses[id]? with
    | none => simp [scan, found] at e
    | some c =>
      have here := (placed id c found).mono static
      cases admitted : keys.admits c.keys with
      | false =>
        rw [scan_cons_of_not_admits found admitted] at e
        exact .cons ⟨c, found, fun yes => by simp [admitted] at yes⟩ (ih e)
      | true =>
        have attempt := e
        simp only [scan, found, admitted, ↓reduceIte, Halt.bind_eq_ok] at attempt
        obtain ⟨⟨o, w⟩, outcome, attempt⟩ := attempt
        cases o with
        | none =>
          obtain ⟨-, fails⟩ := (resolveWith_eq_none here rooted).mp outcome
          rw [scan_cons_of_fails placed static rooted found fails] at e
          exact .cons ⟨c, found, fun _ => ⟨fuel, fails⟩⟩ (ih e)
        | some s =>
          obtain ⟨-, resolves⟩ := (resolveWith_eq_some here rooted).mp outcome
          rw [scan_cons_of_resolves placed static rooted found admitted resolves] at e
          cases e
          exact .used (List.nil_append _).symm nofun found admitted resolves

theorem resolveWith_mono {more : Nat} {o : Option Resolution} (le : fuel ≤ more)
    (e : p.resolveWith fuel queryHead goal rest c t = .ok (o, u)) :
    p.resolveWith more queryHead goal rest c t = .ok (o, u) := by
  obtain ⟨heap, trail⟩ := t
  simp only [resolveWith, Halt.bind_eq_ok] at e ⊢
  obtain ⟨h, copied, s, unified, e⟩ := e
  exact ⟨h, copied, s, Store.unify_mono le unified, e⟩

theorem tryCandidates_mono {more untried : Nat} {q left : ChoicePoint} (le : fuel ≤ more)
    (e : p.tryCandidates fuel queryHead goal rest keys untried q t = .ok (r, left, u)) :
    p.tryCandidates more queryHead goal rest keys untried q t = .ok (r, left, u) := by
  induction untried generalizing q t with
  | zero => exact e
  | succ untried ih =>
    unfold tryCandidates at e ⊢
    cases candidate : q.candidates.get? q.cursor with
    | none =>
      rw [candidate] at e
      exact e
    | some id =>
      simp only [candidate] at e ⊢
      cases found : p.clauses[id]? with
      | none => simp [found] at e
      | some c =>
        simp only [found] at e ⊢
        split at e
        · next admitted =>
          rw [if_pos admitted]
          obtain ⟨⟨o, w⟩, outcome, e⟩ := Halt.bind_eq_ok.mp e
          rw [resolveWith_mono le outcome, Halt.ok_bind]
          cases o with
          | none => exact ih e
          | some s => exact e
        · next refused =>
          rw [if_neg refused]
          exact ih e

theorem scan_append_of_refuted {before : List Nat} (placed : p.Placed)
    (static : p.staticTop ≤ t.heap.top) (rooted : t.heap.Rooted)
    (refuted : ∀ id ∈ before, p.Refuted goal keys t id) (queryHead : Cell) (rest : List Cell)
    (ids : List Nat) :
    ∃ fuel, ∀ more, fuel ≤ more → p.scan more queryHead goal rest keys (before ++ ids) t =
      p.scan more queryHead goal rest keys ids t := by
  induction before with
  | nil => exact ⟨0, fun _ _ => rfl⟩
  | cons id before ih =>
    obtain ⟨⟨c, found, clash⟩, later⟩ := List.forall_mem_cons.mp refuted
    obtain ⟨fuel, skip⟩ := ih later
    cases admitted : keys.admits c.keys with
    | false =>
      refine ⟨fuel, fun more le => ?_⟩
      rw [List.cons_append, scan_cons_of_not_admits found admitted, skip more le]
    | true =>
      obtain ⟨work, fails⟩ := clash admitted
      refine ⟨max fuel work, fun more le => ?_⟩
      rw [List.cons_append, scan_cons_of_fails placed static rooted found
        (fails.mono (by omega)), skip more (by omega)]

theorem Scanned.exists_scan (placed : p.Placed) (static : p.staticTop ≤ t.heap.top)
    (rooted : t.heap.Rooted) (e : p.Scanned queryHead goal rest keys t ids r left u) :
    ∃ fuel, p.scan fuel queryHead goal rest keys ids t = .ok (r, left, u) := by
  cases e with
  | exhausted all =>
    obtain ⟨fuel, skip⟩ := scan_append_of_refuted placed static rooted all queryHead rest []
    refine ⟨fuel, ?_⟩
    rw [← List.append_nil ids, skip fuel (Nat.le_refl _)]
    rfl
  | @used id work c before left u split skipped found admitted resolves =>
    obtain ⟨fuel, skip⟩ :=
      scan_append_of_refuted placed static rooted skipped queryHead rest (id :: left)
    refine ⟨max fuel work, ?_⟩
    rw [split, skip _ (Nat.le_max_left ..)]
    exact scan_cons_of_resolves placed static rooted found admitted
      (resolves.mono (Nat.le_max_right ..))

end Program

end HornMachine
