import HornMachine.Proofs.Chains
import HornMachine.Proofs.Rewinding
import HornMachine.Unification

/-!
# One turn of unification

A turn takes a pair off the work list. Once both sides are dereferenced there
are four outcomes, collected in `Met`: the sides are the same cell, one is a
variable and is bound to the other, both are structures with equal headers whose
elements are queued, or they clash. Properties of a whole unification follow from
one turn by induction on the fuel.
-/
namespace HornMachine.Store

/-- What is left to do after a pair, or `none` when its sides clash. -/
def unifyTurn (boundary : Nat) (a b : Cell) (work : List (Cell × Cell)) (s : Store) :
    Except Halt (Option (List (Cell × Cell) × Store)) := do
  let x ← s.heap.deref a
  let y ← s.heap.deref b
  if x = y then return some (work, s)
  else if x.isVar then
    if y.isVar && x.addr < y.addr then return some (work, ← s.bind boundary y.addr x)
    else return some (work, ← s.bind boundary x.addr y)
  else if y.isVar then return some (work, ← s.bind boundary y.addr x)
  else if x.tag = .structRef ∧ y.tag = .structRef then
    return (← pushStructures s.heap x.addr y.addr work).map (·, s)
  else return none

theorem unifyAll_cons (boundary fuel : Nat) (a b : Cell) (work : List (Cell × Cell))
    (s : Store) :
    unifyAll boundary (fuel + 1) ((a, b) :: work) s =
      unifyTurn boundary a b work s >>= fun
        | none => .ok (false, s)
        | some (work, t) => unifyAll boundary fuel work t := by
  simp only [unifyAll, unifyTurn, bind_assoc]
  refine congrArg _ (funext fun x => congrArg _ (funext fun y => ?_))
  split
  · rfl
  · split
    · split
      · simp only [bind_assoc, pure_bind]
      · simp only [bind_assoc, pure_bind]
    · split
      · simp only [bind_assoc, pure_bind]
      · split
        · simp only [bind_assoc, pure_bind]
          refine congrArg _ (funext fun queued => ?_)
          cases queued <;> rfl
        · rfl

theorem pushElements_spec {h : Heap} {a b n : Nat} {work queued : List (Cell × Cell)}
    (e : pushElements h a b n work = .ok queued) :
    (∀ p ∈ work, p ∈ queued) ∧
    (∀ i < n, ∃ u v, h.get? (a + 1 + i) = some u ∧ h.get? (b + 1 + i) = some v ∧
      (u = v ∨ (u, v) ∈ queued)) ∧
    (∀ p ∈ queued, p ∈ work ∨
      ∃ i < n, h.get? (a + 1 + i) = some p.1 ∧ h.get? (b + 1 + i) = some p.2) := by
  induction n generalizing work with
  | zero =>
    cases e
    exact ⟨fun p m => m, fun i lt => absurd lt (Nat.not_lt_zero i), fun p m => .inl m⟩
  | succ n ih =>
    simp only [pushElements, Halt.bind_eq_ok, Heap.read_eq_ok] at e
    obtain ⟨u, atU, v, atV, e⟩ := e
    obtain ⟨kept, elements, origin⟩ := ih e
    rw [show a + (n + 1) = a + 1 + n by omega] at atU
    rw [show b + (n + 1) = b + 1 + n by omega] at atV
    refine ⟨?_, ?_, ?_⟩
    · intro p member
      apply kept
      split
      · exact member
      · exact List.mem_cons_of_mem _ member
    · intro i lt
      rcases Nat.lt_succ_iff_lt_or_eq.mp lt with below | rfl
      · exact elements i below
      · refine ⟨u, v, atU, atV, ?_⟩
        by_cases same : u = v
        · exact .inl same
        · exact .inr (kept _ (by simp [same]))
    · intro p member
      rcases origin p member with queued | ⟨i, below, found⟩
      · split at queued
        · exact .inl queued
        · rcases List.mem_cons.mp queued with rfl | old
          · exact .inr ⟨n, by omega, atU, atV⟩
          · exact .inl old
      · exact .inr ⟨i, by omega, found⟩

theorem exists_pushElements {h : Heap} {a b n : Nat} (insideA : a + n < h.top)
    (insideB : b + n < h.top) (work : List (Cell × Cell)) :
    ∃ queued, pushElements h a b n work = .ok queued := by
  induction n generalizing work with
  | zero => exact ⟨work, rfl⟩
  | succ n ih =>
    obtain ⟨u, atU⟩ := Heap.exists_get? insideA
    obtain ⟨v, atV⟩ := Heap.exists_get? insideB
    obtain ⟨queued, pushed⟩ := ih (by omega) (by omega) (if u = v then work else (u, v) :: work)
    refine ⟨queued, ?_⟩
    rw [pushElements, Heap.read_eq_ok.mpr atU, Heap.read_eq_ok.mpr atV]
    exact pushed

theorem pushStructures_eq_ok {h : Heap} {a b : Nat} {work : List (Cell × Cell)}
    {q : Option (List (Cell × Cell))} :
    pushStructures h a b work = .ok q ↔ ∃ c d, h.get? a = some c ∧ h.get? b = some d ∧
      if c = d then ∃ queued, pushElements h a b c.addr work = .ok queued ∧ some queued = q
      else none = q := by
  simp only [pushStructures, Halt.bind_eq_ok, Heap.read_eq_ok]
  refine exists_congr fun c => ?_
  rw [← exists_and_left]
  refine exists_congr fun d => and_congr_right fun _ => and_congr_right fun _ => ?_
  split
  · rw [Halt.bind_eq_ok]
    exact exists_congr fun queued => and_congr_right fun _ => Halt.pure_eq_ok
  · exact Halt.pure_eq_ok

/-! ### The four outcomes -/

/-- Two ends of chains that are variables are one, or lie at different addresses. -/
theorem addr_ne_of_ends {h : Heap} {a b x y : Cell} (ax : h.Leads a x) (bY : h.Leads b y)
    (other : x ≠ y) (xVar : x.isVar = true) (yVar : y.isVar = true) : x.addr ≠ y.addr := by
  intro same
  have atX := ax.root_of_isVar xVar
  rw [same, bY.root_of_isVar yVar, Option.some.injEq] at atX
  exact other atX.symm

/-- How the ends of two chains stand to each other: they are one cell, a variable is
bound to the other end, both refer to structures, or they clash. Of two variables it is
the younger that is bound. -/
inductive Ends (x y : Cell) : Prop
  | same : x = y → Ends x y
  | binds {v e : Cell} : x ≠ y → (v = x ∧ e = y ∨ v = y ∧ e = x) → v.isVar = true →
      (e.isVar = true → e.addr ≤ v.addr) → Ends x y
  | structures : x ≠ y → x.tag = .structRef → y.tag = .structRef → Ends x y
  | clash : x ≠ y → x.isVar = false → y.isVar = false →
      ¬ (x.tag = .structRef ∧ y.tag = .structRef) → Ends x y

theorem ends_cases (x y : Cell) : Ends x y := by
  by_cases other : x = y
  · exact .same other
  cases xVar : x.isVar with
  | true =>
    by_cases younger : y.isVar = true ∧ x.addr ≤ y.addr
    · exact .binds other (.inr ⟨rfl, rfl⟩) younger.1 fun _ => younger.2
    · refine .binds other (.inl ⟨rfl, rfl⟩) xVar fun yVar => ?_
      exact Nat.le_of_not_le fun le => younger ⟨yVar, le⟩
  | false =>
    cases yVar : y.isVar with
    | true =>
      refine .binds other (.inr ⟨rfl, rfl⟩) yVar fun xVar' => ?_
      rw [xVar] at xVar'
      cases xVar'
    | false =>
      by_cases structures : x.tag = .structRef ∧ y.tag = .structRef
      · exact .structures other structures.1 structures.2
      · exact .clash other xVar yVar structures

section

variable {boundary : Nat} {a b x y : Cell} {work : List (Cell × Cell)} {s : Store}

theorem unifyTurn_same (ax : s.heap.Leads a x) (bX : s.heap.Leads b x) :
    unifyTurn boundary a b work s = .ok (some (work, s)) := by
  rw [unifyTurn, Heap.deref_eq_ok.mpr ax, Halt.ok_bind, Heap.deref_eq_ok.mpr bX, Halt.ok_bind,
    if_pos rfl]
  rfl

theorem unifyTurn_binds (ax : s.heap.Leads a x) (bY : s.heap.Leads b y) {v e : Cell}
    (other : x ≠ y) (sides : v = x ∧ e = y ∨ v = y ∧ e = x) (isVar : v.isVar = true)
    (older : e.isVar = true → e.addr ≤ v.addr) :
    unifyTurn boundary a b work s =
      s.bind boundary v.addr e >>= fun t => .ok (some (work, t)) := by
  have apart := addr_ne_of_ends ax bY other
  rw [unifyTurn, Heap.deref_eq_ok.mpr ax, Halt.ok_bind, Heap.deref_eq_ok.mpr bY, Halt.ok_bind,
    if_neg other]
  rcases sides with ⟨rfl, rfl⟩ | ⟨rfl, rfl⟩
  · have first : ¬ (e.isVar && decide (v.addr < e.addr)) = true := by
      rw [Bool.and_eq_true, decide_eq_true_eq]
      exact fun ⟨eVar, lt⟩ => Nat.not_lt.mpr (older eVar) lt
    rw [if_pos isVar, if_neg first]
    rfl
  · cases eVar : e.isVar with
    | true =>
      have younger : e.addr < v.addr := Nat.lt_of_le_of_ne (older eVar) (apart eVar isVar)
      rw [if_pos rfl, if_pos (by rw [isVar, decide_eq_true younger]; rfl)]
      rfl
    | false =>
      rw [if_neg Bool.false_ne_true, if_pos isVar]
      rfl

theorem unifyTurn_structures (ax : s.heap.Leads a x) (bY : s.heap.Leads b y) (other : x ≠ y)
    (tagX : x.tag = .structRef) (tagY : y.tag = .structRef) :
    unifyTurn boundary a b work s =
      pushStructures s.heap x.addr y.addr work >>= fun q => .ok (q.map (·, s)) := by
  have xValue := Cell.not_isVar_of_tag tagX (by decide) (by decide)
  have yValue := Cell.not_isVar_of_tag tagY (by decide) (by decide)
  rw [unifyTurn, Heap.deref_eq_ok.mpr ax, Halt.ok_bind, Heap.deref_eq_ok.mpr bY, Halt.ok_bind,
    if_neg other, xValue, yValue, if_neg Bool.false_ne_true, if_neg Bool.false_ne_true,
    if_pos ⟨tagX, tagY⟩]
  rfl

theorem unifyTurn_clash (ax : s.heap.Leads a x) (bY : s.heap.Leads b y) (other : x ≠ y)
    (xValue : x.isVar = false) (yValue : y.isVar = false)
    (clash : ¬ (x.tag = .structRef ∧ y.tag = .structRef)) :
    unifyTurn boundary a b work s = .ok none := by
  rw [unifyTurn, Heap.deref_eq_ok.mpr ax, Halt.ok_bind, Heap.deref_eq_ok.mpr bY, Halt.ok_bind,
    if_neg other, xValue, yValue, if_neg Bool.false_ne_true, if_neg Bool.false_ne_true,
    if_neg clash]
  rfl

theorem leads_of_unifyTurn {o : Option (List (Cell × Cell) × Store)}
    (turned : unifyTurn boundary a b work s = .ok o) :
    ∃ x y, s.heap.Leads a x ∧ s.heap.Leads b y := by
  obtain ⟨x, ax, turned⟩ := Halt.bind_eq_ok.mp turned
  obtain ⟨y, bY, -⟩ := Halt.bind_eq_ok.mp turned
  exact ⟨x, y, .of_deref ax, .of_deref bY⟩

end

/-- What comes of a pair whose sides dereference to `x` and `y`. -/
inductive Met (boundary : Nat) (s : Store) (work : List (Cell × Cell)) (x y : Cell) :
    Option (List (Cell × Cell) × Store) → Prop
  | same : x = y → Met boundary s work x y (some (work, s))
  | bound {v e : Cell} {t : Store} : x ≠ y → (v = x ∧ e = y ∨ v = y ∧ e = x) →
      v.isVar = true → (e.isVar = true → e.addr ≤ v.addr) →
      s.bind boundary v.addr e = .ok t → Met boundary s work x y (some (work, t))
  | opened {c : Cell} {queued : List (Cell × Cell)} : x ≠ y →
      x.tag = .structRef → y.tag = .structRef →
      s.heap.get? x.addr = some c → s.heap.get? y.addr = some c →
      pushElements s.heap x.addr y.addr c.addr work = .ok queued →
      Met boundary s work x y (some (queued, s))
  | clashed : x ≠ y → x.isVar = false → y.isVar = false →
      (x.tag = .structRef → y.tag = .structRef →
        s.heap.get? x.addr ≠ s.heap.get? y.addr) → Met boundary s work x y none

theorem Met.of_unifyTurn {boundary : Nat} {a b : Cell} {work : List (Cell × Cell)} {s : Store}
    {o : Option (List (Cell × Cell) × Store)} (e : unifyTurn boundary a b work s = .ok o) :
    ∃ x y, s.heap.Leads a x ∧ s.heap.Leads b y ∧ Met boundary s work x y o := by
  obtain ⟨x, y, ax, bY⟩ := leads_of_unifyTurn e
  refine ⟨x, y, ax, bY, ?_⟩
  cases ends_cases x y with
  | same equal =>
    subst equal
    rw [unifyTurn_same ax bY] at e
    cases e
    exact .same rfl
  | binds other sides isVar older =>
    rw [unifyTurn_binds ax bY other sides isVar older] at e
    obtain ⟨t, bound, e⟩ := Halt.bind_eq_ok.mp e
    cases e
    exact .bound other sides isVar older bound
  | structures other tagX tagY =>
    rw [unifyTurn_structures ax bY other tagX tagY] at e
    obtain ⟨q, pushed, e⟩ := Halt.bind_eq_ok.mp e
    cases e
    obtain ⟨c, d, atX, atY, elements⟩ := pushStructures_eq_ok.mp pushed
    split at elements
    · next headers =>
      obtain ⟨queued, elements, rfl⟩ := elements
      exact .opened other tagX tagY atX (headers ▸ atY) elements
    · next headers =>
      subst elements
      refine .clashed other (Cell.not_isVar_of_tag tagX (by decide) (by decide))
        (Cell.not_isVar_of_tag tagY (by decide) (by decide)) fun _ _ same => headers ?_
      rwa [atX, atY, Option.some.injEq] at same
  | clash other xValue yValue clash =>
    rw [unifyTurn_clash ax bY other xValue yValue clash] at e
    cases e
    exact .clashed other xValue yValue fun tagX tagY => absurd ⟨tagX, tagY⟩ clash

/-- A turn has an outcome when both chains end and the structures they end at are
complete. -/
theorem exists_unifyTurn {a b x y : Cell} {s : Store} (ax : s.heap.Leads a x)
    (bY : s.heap.Leads b y) (completeX : x.tag = .structRef → s.heap.Complete x.addr)
    (completeY : y.tag = .structRef → s.heap.Complete y.addr) (boundary : Nat)
    (work : List (Cell × Cell)) : ∃ o, unifyTurn boundary a b work s = .ok o := by
  cases ends_cases x y with
  | same equal =>
    subst equal
    exact ⟨_, unifyTurn_same ax bY⟩
  | @binds v e other sides isVar older =>
    have found : s.heap.get? v.addr = some v := by
      rcases sides with ⟨rfl, -⟩ | ⟨rfl, -⟩
      · exact ax.root_of_isVar isVar
      · exact bY.root_of_isVar isVar
    obtain ⟨k, written⟩ := Heap.exists_write (Heap.lt_top_of_get? found) e
    obtain ⟨t, bound⟩ : ∃ t, s.bind boundary v.addr e = .ok t :=
      ⟨⟨k, _⟩, bind_eq_ok.mpr ⟨written, rfl⟩⟩
    refine ⟨some (work, t), (unifyTurn_binds ax bY other sides isVar older).trans ?_⟩
    rw [bound, Halt.ok_bind]
  | structures other tagX tagY =>
    obtain ⟨n, headerX, insideX⟩ := completeX tagX
    obtain ⟨m, headerY, insideY⟩ := completeY tagY
    obtain ⟨q, pushed⟩ : ∃ q, pushStructures s.heap x.addr y.addr work = .ok q := by
      by_cases headers : Cell.header n = .header m
      · have limit := s.heap.top_lt
        obtain rfl := Cell.make_inj (by omega) (by omega) headers
        obtain ⟨queued, pushed⟩ := exists_pushElements insideX insideY work
        refine ⟨some queued, pushStructures_eq_ok.mpr ⟨_, _, headerX, headerY, ?_⟩⟩
        rw [if_pos rfl, Cell.addr_header (by omega)]
        exact ⟨queued, pushed, rfl⟩
      · exact ⟨none, pushStructures_eq_ok.mpr ⟨_, _, headerX, headerY, by rw [if_neg headers]⟩⟩
    exact ⟨_, (unifyTurn_structures ax bY other tagX tagY).trans (by rw [pushed, Halt.ok_bind])⟩
  | clash other xValue yValue clash =>
    exact ⟨_, unifyTurn_clash ax bY other xValue yValue clash⟩

theorem unifyAll_mono {boundary fuel more : Nat} {work : List (Cell × Cell)} {s : Store}
    {r : Bool × Store} (le : fuel ≤ more) (e : unifyAll boundary fuel work s = .ok r) :
    unifyAll boundary more work s = .ok r := by
  induction fuel generalizing more work s with
  | zero =>
    cases work with
    | nil => simpa [unifyAll] using e
    | cons p work => simp [unifyAll] at e
  | succ fuel ih =>
    obtain ⟨more, rfl⟩ : ∃ m, more = m + 1 := ⟨more - 1, by omega⟩
    cases work with
    | nil => simpa [unifyAll] using e
    | cons p work =>
      obtain ⟨a, b⟩ := p
      rw [unifyAll_cons, Halt.bind_eq_ok] at e ⊢
      obtain ⟨o, turn, rest⟩ := e
      refine ⟨o, turn, ?_⟩
      cases o with
      | none => exact rest
      | some next => exact ih (by omega) rest

theorem unify_mono {s : Store} {fuel more boundary : Nat} {goal head : Cell} {r : Bool × Store}
    (le : fuel ≤ more) (e : s.unify fuel boundary goal head = .ok r) :
    s.unify more boundary goal head = .ok r := unifyAll_mono le e

theorem unify_unique {s : Store} {fuel fuel' boundary : Nat} {goal head : Cell}
    {r r' : Bool × Store} (e : s.unify fuel boundary goal head = .ok r)
    (e' : s.unify fuel' boundary goal head = .ok r') : r = r' :=
  Halt.unique_of_mono (f := (s.unify · boundary goal head)) unify_mono e e'

/-- What every turn keeps holds when unification ends, with no pairs left if it
succeeded. -/
theorem unifyAll_keeps {boundary : Nat} {I : List (Cell × Cell) → Store → Prop}
    (turn : ∀ {a b x y : Cell} {work queued : List (Cell × Cell)} {s t : Store},
      I ((a, b) :: work) s → s.heap.Leads a x → s.heap.Leads b y →
      Met boundary s work x y (some (queued, t)) → I queued t)
    {fuel : Nat} {work : List (Cell × Cell)} {s t : Store} {unified : Bool}
    (start : I work s) (e : unifyAll boundary fuel work s = .ok (unified, t)) :
    ∃ left, I left t ∧ (unified = true → left = []) := by
  induction fuel generalizing work s with
  | zero =>
    cases work with
    | nil =>
      cases e
      exact ⟨[], start, fun _ => rfl⟩
    | cons p work => simp [unifyAll] at e
  | succ fuel ih =>
    cases work with
    | nil =>
      simp only [unifyAll, Except.ok.injEq, Prod.mk.injEq] at e
      exact ⟨[], e.2 ▸ start, fun _ => rfl⟩
    | cons p work =>
      obtain ⟨a, b⟩ := p
      rw [unifyAll_cons, Halt.bind_eq_ok] at e
      obtain ⟨o, turned, rest⟩ := e
      obtain ⟨x, y, ax, bY, met⟩ := Met.of_unifyTurn turned
      cases o with
      | none =>
        cases rest
        exact ⟨_, start, by simp⟩
      | some next => exact ih (turn start ax bY met) rest

/-- The variable bound in a turn is a root, and the other side does not refer to
it. -/
theorem bound_root {h : Heap} {a b x y v e : Cell} (ax : h.Leads a x) (bY : h.Leads b y)
    (other : x ≠ y) (sides : v = x ∧ e = y ∨ v = y ∧ e = x) (isVar : v.isVar = true) :
    h.get? v.addr = some v ∧ (e.isVar = true → e.addr ≠ v.addr) := by
  have apart := addr_ne_of_ends ax bY other
  rcases sides with ⟨rfl, rfl⟩ | ⟨rfl, rfl⟩
  · exact ⟨ax.root_of_isVar isVar, fun eVar => (apart isVar eVar).symm⟩
  · exact ⟨bY.root_of_isVar isVar, fun eVar => apart eVar isVar⟩

theorem binding_of_bound {boundary : Nat} {s t : Store} {a b x y v e : Cell}
    (ax : s.heap.Leads a x) (bY : s.heap.Leads b y) (other : x ≠ y)
    (sides : v = x ∧ e = y ∨ v = y ∧ e = x) (isVar : v.isVar = true)
    (bound : s.bind boundary v.addr e = .ok t) : s.heap.Binding t.heap v e := by
  have root := (bound_root ax bY other sides isVar).1
  have written := (bind_eq_ok.mp bound).1
  rcases sides with ⟨rfl, rfl⟩ | ⟨rfl, rfl⟩
  · exact ⟨written, isVar, root, bY.ended, other.symm⟩
  · exact ⟨written, isVar, root, ax.ended, other⟩

/-- Unification only goes on from the store it started with: it can be rewound,
with every variable below the old top logged. -/
theorem Extends.unifyAll {base s t : Store} {boundary fuel : Nat} {work : List (Cell × Cell)}
    {unified : Bool} (extends' : Extends base s) (rooted : s.heap.Rooted)
    (covered : base.heap.top ≤ boundary + 1)
    (e : unifyAll boundary fuel work s = .ok (unified, t)) :
    Extends base t ∧ t.heap.Rooted ∧ t.heap.top = s.heap.top := by
  obtain ⟨left, kept, -⟩ := unifyAll_keeps
    (I := fun _ u => Extends base u ∧ u.heap.Rooted ∧ u.heap.top = s.heap.top)
    (by
      rintro a b x y work queued u w ⟨before, root, size⟩ ax bY met
      cases met with
      | same _ => exact ⟨before, root, size⟩
      | opened _ _ _ _ _ _ => exact ⟨before, root, size⟩
      | bound other sides isVar _ binding =>
        obtain ⟨atV, apart⟩ := bound_root ax bY other sides isVar
        have written := (bind_eq_ok.mp binding).1
        have free := root _ _ atV isVar rfl
        refine ⟨before.bind (free ▸ atV) (fun below => by omega) binding,
          root.write written apart, (Heap.top_write written).trans size⟩)
    ⟨extends', rooted, rfl⟩ e
  exact kept

end HornMachine.Store
