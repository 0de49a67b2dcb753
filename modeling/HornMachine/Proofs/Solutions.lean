import HornMachine.Proofs.UnificationTurn

/-!
# What unification solves

Let every address of a region stand for a tree. The cells of the region are then
equations: a variable stands for what its target does, a reference for the array of its
elements. Pairs that are still to be made equal are further equations. A turn of
unification keeps the solutions of the whole system, all of them and no others, and a
clash has none. So the heap of a unification that succeeds has exactly the solutions
the goal and the head had in common, and a unification that fails shows that they had
none.

A region is any set of addresses that is closed under references. Which trees there are
is left open: a reading only has to tell the cells that are neither variables nor
references apart, and these from arrays.
-/
namespace HornMachine

/-- Trees of type `T` for cells. -/
structure Reading (T : Type) where
  /-- What a cell stands for that is neither a variable nor a reference. -/
  leaf : Cell → T
  array : List T → T
  /-- The cells that leaves are read from. -/
  atom : Cell → Prop
  leaf_inj : ∀ {c d : Cell}, atom c → atom d → leaf c = leaf d → c = d
  leaf_ne : ∀ {c : Cell} {ts : List T}, atom c → leaf c ≠ array ts
  array_inj : ∀ {ts us : List T}, array ts = array us → ts = us

variable {T : Type} {r : Reading T} {R : Nat → Prop} {v : Nat → T}

namespace Heap

/-- The tree a cell stands for when the addresses of the heap stand for `v`. -/
def value (h : Heap) (r : Reading T) (v : Nat → T) (c : Cell) : T :=
  match c.tag with
  | .unboundVar | .varRef => v c.addr
  | .structRef => r.array ((List.range ((h.arity c).getD 0)).map fun i => v (c.addr + 1 + i))
  | .constant | .number | .arrayHeader | .malformed => r.leaf c

/-- `v` solves the cells of the region. -/
def SolvedBy (h : Heap) (r : Reading T) (R : Nat → Prop) (v : Nat → T) : Prop :=
  ∀ a c, R a → h.get? a = some c → v a = h.value r v c

/-- What the cell refers to lies in the region, and if it refers to nothing it is an
atom. -/
structure Inside (h : Heap) (r : Reading T) (R : Nat → Prop) (c : Cell) : Prop where
  var : c.isVar = true → R c.addr
  ref : c.tag = .structRef → ∃ n, h.get? c.addr = some (.header n) ∧ c.addr + n < h.top ∧
    ∀ i, i < n → R (c.addr + 1 + i)
  atom : c.isVar = false → c.tag ≠ .structRef → r.atom c

/-- The cells of the region lead to nothing outside it. -/
def ClosedOn (h : Heap) (r : Reading T) (R : Nat → Prop) : Prop :=
  ∀ a c, R a → h.get? a = some c → h.Inside r R c

variable {h k : Heap} {c d e u x y : Cell} {n m : Nat}

theorem value_var (isVar : c.isVar = true) : h.value r v c = v c.addr := by
  rcases Cell.isVar_iff.mp isVar with tag | tag <;> simp only [value, tag]

theorem value_ref (tag : c.tag = .structRef) (header : h.get? c.addr = some (.header n))
    (inside : c.addr + n < h.top) :
    h.value r v c = r.array ((List.range n).map fun i => v (c.addr + 1 + i)) := by
  have limit := h.top_lt
  simp only [value, tag, arity_of_header header (by omega), Option.getD_some]

theorem value_leaf (notVar : c.isVar = false) (notRef : c.tag ≠ .structRef) :
    h.value r v c = r.leaf c := by
  have isVar := Cell.isVar_iff (c := c)
  unfold value
  cases tag : c.tag <;> simp_all

theorem Inside.complete (inside : h.Inside r R c) (tag : c.tag = .structRef) :
    h.Complete c.addr := by
  obtain ⟨n, header, bound, -⟩ := inside.ref tag
  exact ⟨n, header, bound⟩

theorem Leads.inside (leads : h.Leads c x) (closed : h.ClosedOn r R) (inside : h.Inside r R c) :
    h.Inside r R x := by
  induction leads with
  | value _ => exact inside
  | root _ _ => exact inside
  | step isVar found _ _ ih => exact ih (closed _ _ (inside.var isVar) found)

theorem Leads.value_eq (leads : h.Leads c x) (closed : h.ClosedOn r R)
    (solved : h.SolvedBy r R v) (inside : h.Inside r R c) :
    h.value r v c = h.value r v x := by
  induction leads with
  | value _ => rfl
  | root _ _ => rfl
  | step isVar found _ _ ih =>
    have low := inside.var isVar
    rw [value_var isVar, solved _ _ low found]
    exact ih (closed _ _ low found)

/-! ### Bindings -/

namespace Binding

variable (binding : h.Binding k u e)

include binding

theorem header {a : Nat} (found : h.get? a = some (.header n)) : k.get? a = some (.header n) :=
  binding.get?_of_value found (Cell.header_isVar n)

theorem top : k.top = h.top := top_write binding.written

theorem inside (inside : h.Inside r R c) : k.Inside r R c where
  var := inside.var
  ref tag := by
    obtain ⟨n, header, bound, elements⟩ := inside.ref tag
    exact ⟨n, binding.header header, binding.top ▸ bound, elements⟩
  atom := inside.atom

theorem value_eq (inside : h.Inside r R c) : k.value r v c = h.value r v c := by
  cases isVar : c.isVar with
  | true => rw [value_var isVar, value_var isVar]
  | false =>
    by_cases tag : c.tag = .structRef
    · obtain ⟨n, header, bound, -⟩ := inside.ref tag
      rw [value_ref tag header bound,
        value_ref tag (binding.header header) (binding.top ▸ bound)]
    · rw [value_leaf isVar tag, value_leaf isVar tag]

theorem closedOn (closed : h.ClosedOn r R) (inside : h.Inside r R e) : k.ClosedOn r R := by
  intro a c low found
  rw [binding.get?] at found
  split at found
  · obtain rfl := Option.some.inj found
    exact binding.inside inside
  · exact binding.inside (closed a c low found)

/-- A binding adds the equation between the variable and what it is bound to. -/
theorem solvedBy_iff (closed : h.ClosedOn r R) (low : R u.addr) (inside : h.Inside r R e) :
    k.SolvedBy r R v ↔ h.SolvedBy r R v ∧ h.value r v u = h.value r v e := by
  rw [value_var binding.isVar]
  constructor
  · intro solved
    refine ⟨fun a c at' found => ?_, ?_⟩
    · by_cases same : a = u.addr
      · subst same
        obtain rfl := Option.some.inj (found.symm.trans binding.root)
        exact (value_var binding.isVar).symm
      · rw [solved a c at' (by rw [binding.get?, if_neg same, found]),
          binding.value_eq (closed a c at' found)]
    · rw [solved u.addr e low (by rw [binding.get?, if_pos rfl]), binding.value_eq inside]
  · intro ⟨solved, same⟩ a c at' found
    rw [binding.get?] at found
    split at found
    · next here =>
      obtain rfl := Option.some.inj found
      rw [here, same, binding.value_eq inside]
    · rw [solved a c at' found, binding.value_eq (closed a c at' found)]

end Binding

/-! ### Clashes -/

/-- Values that unification cannot make equal stand for different trees. -/
theorem value_ne (insideX : h.Inside r R x) (insideY : h.Inside r R y) (other : x ≠ y)
    (xValue : x.isVar = false) (yValue : y.isVar = false)
    (headers : x.tag = .structRef → y.tag = .structRef → h.get? x.addr ≠ h.get? y.addr) :
    h.value r v x ≠ h.value r v y := by
  by_cases tagX : x.tag = .structRef
  · obtain ⟨n, atX, boundX, -⟩ := insideX.ref tagX
    rw [value_ref tagX atX boundX]
    by_cases tagY : y.tag = .structRef
    · obtain ⟨m, atY, boundY, -⟩ := insideY.ref tagY
      rw [value_ref tagY atY boundY]
      intro same
      have lengths := congrArg List.length (r.array_inj same)
      simp only [List.length_map, List.length_range] at lengths
      exact headers tagX tagY (by rw [atX, atY, lengths])
    · rw [value_leaf yValue tagY]
      exact (r.leaf_ne (insideY.atom yValue tagY)).symm
  · rw [value_leaf xValue tagX]
    by_cases tagY : y.tag = .structRef
    · obtain ⟨m, atY, boundY, -⟩ := insideY.ref tagY
      rw [value_ref tagY atY boundY]
      exact r.leaf_ne (insideX.atom xValue tagX)
    · rw [value_leaf yValue tagY]
      exact fun same => other
        (r.leaf_inj (insideX.atom xValue tagX) (insideY.atom yValue tagY) same)

end Heap

namespace Store

variable {boundary fuel : Nat} {work queued : List (Cell × Cell)} {s t : Store}
  {a b c x y : Cell}

/-- The region is closed, and the pairs still to be made equal lie in it. -/
structure Confined (r : Reading T) (R : Nat → Prop) (work : List (Cell × Cell)) (s : Store) :
    Prop where
  closed : s.heap.ClosedOn r R
  pairs : ∀ p ∈ work, s.heap.Inside r R p.1 ∧ s.heap.Inside r R p.2

/-- `v` solves the cells of the region and the pairs still to be made equal. -/
structure Solves (r : Reading T) (R : Nat → Prop) (v : Nat → T) (work : List (Cell × Cell))
    (s : Store) : Prop where
  heap : s.heap.SolvedBy r R v
  pairs : ∀ p ∈ work, s.heap.value r v p.1 = s.heap.value r v p.2

theorem Confined.tail (confined : Confined r R ((a, b) :: work) s) : Confined r R work s :=
  ⟨confined.closed, fun p member => confined.pairs p (.tail _ member)⟩

theorem Confined.ends (confined : Confined r R ((a, b) :: work) s) (ax : s.heap.Leads a x)
    (bY : s.heap.Leads b y) : s.heap.Inside r R x ∧ s.heap.Inside r R y := by
  obtain ⟨insideA, insideB⟩ := confined.pairs (a, b) (.head _)
  exact ⟨ax.inside confined.closed insideA, bY.inside confined.closed insideB⟩

/-- The first pair may be replaced by the cells its sides dereference to. -/
theorem Confined.solves_cons (confined : Confined r R ((a, b) :: work) s)
    (ax : s.heap.Leads a x) (bY : s.heap.Leads b y) :
    Solves r R v ((a, b) :: work) s ↔
      Solves r R v work s ∧ s.heap.value r v x = s.heap.value r v y := by
  obtain ⟨insideA, insideB⟩ := confined.pairs (a, b) (.head _)
  constructor
  · intro solves
    obtain ⟨first, rest⟩ := List.forall_mem_cons.mp solves.pairs
    refine ⟨⟨solves.heap, rest⟩, ?_⟩
    rw [← ax.value_eq confined.closed solves.heap insideA,
      ← bY.value_eq confined.closed solves.heap insideB]
    exact first
  · intro ⟨solves, same⟩
    refine ⟨solves.heap, List.forall_mem_cons.mpr ⟨?_, solves.pairs⟩⟩
    rw [ax.value_eq confined.closed solves.heap insideA,
      bY.value_eq confined.closed solves.heap insideB]
    exact same

theorem Confined.opened (confined : Confined r R ((a, b) :: work) s) (ax : s.heap.Leads a x)
    (bY : s.heap.Leads b y) (tagX : x.tag = .structRef) (tagY : y.tag = .structRef)
    (atX : s.heap.get? x.addr = some c) (atY : s.heap.get? y.addr = some c) :
    x.addr + c.addr < s.heap.top ∧ y.addr + c.addr < s.heap.top ∧ c = .header c.addr ∧
      ∀ i, i < c.addr → R (x.addr + 1 + i) ∧ R (y.addr + 1 + i) := by
  obtain ⟨insideX, insideY⟩ := confined.ends ax bY
  obtain ⟨n, headerX, boundX, elementsX⟩ := insideX.ref tagX
  obtain ⟨m, headerY, boundY, elementsY⟩ := insideY.ref tagY
  have limit := s.heap.top_lt
  obtain rfl := Option.some.inj (atX.symm.trans headerX)
  have headers : Cell.header n = Cell.header m := Option.some.inj (atY.symm.trans headerY)
  obtain rfl := Cell.make_inj (by omega) (by omega) headers
  rw [Cell.addr_header (by omega)]
  exact ⟨boundX, boundY, rfl, fun i inside => ⟨elementsX i inside, elementsY i inside⟩⟩

theorem Confined.pushElements {m n count : Nat} (confined : Confined r R work s)
    (elements : ∀ i, i < count → R (m + 1 + i) ∧ R (n + 1 + i))
    (pushed : Store.pushElements s.heap m n count work = .ok queued) :
    Confined r R queued s := by
  refine ⟨confined.closed, fun p member => ?_⟩
  rcases (pushElements_spec pushed).2.2 p member with old | ⟨i, inside, atM, atN⟩
  · exact confined.pairs p old
  · obtain ⟨lowM, lowN⟩ := elements i inside
    exact ⟨confined.closed _ _ lowM atM, confined.closed _ _ lowN atN⟩

theorem Confined.turn (confined : Confined r R ((a, b) :: work) s) (ax : s.heap.Leads a x)
    (bY : s.heap.Leads b y) (met : Met boundary s work x y (some (queued, t))) :
    Confined r R queued t := by
  obtain ⟨insideX, insideY⟩ := confined.ends ax bY
  cases met with
  | same _ => exact confined.tail
  | opened _ tagX tagY atX atY pushed =>
    obtain ⟨-, -, -, elements⟩ := confined.opened ax bY tagX tagY atX atY
    exact confined.tail.pushElements elements pushed
  | @bound u e _ other sides isVar _ bound =>
    have binding := binding_of_bound ax bY other sides isVar bound
    have insideE : s.heap.Inside r R e := by
      rcases sides with ⟨rfl, rfl⟩ | ⟨rfl, rfl⟩
      · exact insideY
      · exact insideX
    refine ⟨binding.closedOn confined.closed insideE, fun p member => ?_⟩
    obtain ⟨first, second⟩ := confined.tail.pairs p member
    exact ⟨binding.inside first, binding.inside second⟩

/-- Queueing elements adds their equations. -/
theorem solves_pushElements {m n count : Nat} (solved : s.heap.SolvedBy r R v)
    (elements : ∀ i, i < count → R (m + 1 + i) ∧ R (n + 1 + i))
    (pushed : pushElements s.heap m n count work = .ok queued) :
    (∀ p ∈ queued, s.heap.value r v p.1 = s.heap.value r v p.2) ↔
      (∀ p ∈ work, s.heap.value r v p.1 = s.heap.value r v p.2) ∧
        ∀ i, i < count → v (m + 1 + i) = v (n + 1 + i) := by
  obtain ⟨kept, found, origin⟩ := pushElements_spec pushed
  constructor
  · intro all
    refine ⟨fun p member => all p (kept p member), fun i inside => ?_⟩
    obtain ⟨lowM, lowN⟩ := elements i inside
    obtain ⟨d, e, atM, atN, same | member⟩ := found i inside
    · rw [solved _ _ lowM atM, solved _ _ lowN atN, same]
    · rw [solved _ _ lowM atM, solved _ _ lowN atN]
      exact all (d, e) member
  · intro ⟨old, each⟩ p member
    rcases origin p member with queued | ⟨i, inside, atM, atN⟩
    · exact old p queued
    · obtain ⟨lowM, lowN⟩ := elements i inside
      rw [← solved _ _ lowM atM, ← solved _ _ lowN atN]
      exact each i inside

theorem Confined.value_eq_iff (confined : Confined r R ((a, b) :: work) s)
    (ax : s.heap.Leads a x) (bY : s.heap.Leads b y) (tagX : x.tag = .structRef)
    (tagY : y.tag = .structRef) (atX : s.heap.get? x.addr = some c)
    (atY : s.heap.get? y.addr = some c) :
    s.heap.value r v x = s.heap.value r v y ↔
      ∀ i, i < c.addr → v (x.addr + 1 + i) = v (y.addr + 1 + i) := by
  obtain ⟨boundX, boundY, header, -⟩ := confined.opened ax bY tagX tagY atX atY
  rw [Heap.value_ref tagX (header ▸ atX) boundX, Heap.value_ref tagY (header ▸ atY) boundY]
  constructor
  · intro same i inside
    exact List.map_inj_left.mp (r.array_inj same) i (List.mem_range.mpr inside)
  · intro each
    exact congrArg r.array (List.map_inj_left.mpr fun i member => each i (List.mem_range.mp member))

/-- A turn keeps the solutions. -/
theorem Confined.solves_turn (confined : Confined r R ((a, b) :: work) s)
    (ax : s.heap.Leads a x) (bY : s.heap.Leads b y)
    (met : Met boundary s work x y (some (queued, t))) :
    Solves r R v ((a, b) :: work) s ↔ Solves r R v queued t := by
  rw [confined.solves_cons ax bY]
  obtain ⟨insideX, insideY⟩ := confined.ends ax bY
  cases met with
  | same equal =>
    subst equal
    exact and_iff_left rfl
  | opened _ tagX tagY atX atY pushed =>
    obtain ⟨-, -, -, elements⟩ := confined.opened ax bY tagX tagY atX atY
    rw [confined.value_eq_iff ax bY tagX tagY atX atY]
    constructor
    · intro ⟨solves, each⟩
      exact ⟨solves.heap, (solves_pushElements solves.heap elements pushed).mpr
        ⟨solves.pairs, each⟩⟩
    · intro solves
      obtain ⟨old, each⟩ := (solves_pushElements solves.heap elements pushed).mp solves.pairs
      exact ⟨⟨solves.heap, old⟩, each⟩
  | @bound u e _ other sides isVar _ bound =>
    have binding := binding_of_bound ax bY other sides isVar bound
    have sideways : s.heap.Inside r R u ∧ s.heap.Inside r R e ∧
        (s.heap.value r v x = s.heap.value r v y ↔ s.heap.value r v u = s.heap.value r v e) := by
      rcases sides with ⟨rfl, rfl⟩ | ⟨rfl, rfl⟩
      · exact ⟨insideX, insideY, Iff.rfl⟩
      · exact ⟨insideY, insideX, eq_comm⟩
    obtain ⟨insideU, insideE, flip⟩ := sideways
    have heap := binding.solvedBy_iff (v := v) confined.closed (insideU.var isVar) insideE
    have pairs : (∀ p ∈ work, t.heap.value r v p.1 = t.heap.value r v p.2) ↔
        ∀ p ∈ work, s.heap.value r v p.1 = s.heap.value r v p.2 := by
      refine forall_congr' fun p => forall_congr' fun member => ?_
      obtain ⟨first, second⟩ := confined.tail.pairs p member
      rw [binding.value_eq first, binding.value_eq second]
    rw [flip]
    constructor
    · intro ⟨solves, same⟩
      exact ⟨heap.mpr ⟨solves.heap, same⟩, pairs.mpr solves.pairs⟩
    · intro solves
      obtain ⟨old, same⟩ := heap.mp solves.heap
      exact ⟨⟨old, pairs.mp solves.pairs⟩, same⟩

theorem Confined.not_solves (confined : Confined r R ((a, b) :: work) s)
    (ax : s.heap.Leads a x) (bY : s.heap.Leads b y) (met : Met boundary s work x y none) :
    ¬ Solves r R v ((a, b) :: work) s := by
  obtain ⟨insideX, insideY⟩ := confined.ends ax bY
  rw [confined.solves_cons ax bY]
  intro both
  cases met with
  | clashed other xValue yValue headers =>
    exact Heap.value_ne insideX insideY other xValue yValue headers both.2

/-- A unification that ends has decided the system: on success the solutions are those
of the heap it leaves, on failure there are none. -/
theorem Confined.solves_unifyAll {unified : Bool} (confined : Confined r R work s)
    (e : unifyAll boundary fuel work s = .ok (unified, t)) :
    Solves r R v work s ↔ unified = true ∧ t.heap.SolvedBy r R v := by
  induction fuel generalizing work s with
  | zero =>
    cases work with
    | nil =>
      cases e
      exact ⟨fun solves => ⟨rfl, solves.heap⟩, fun done => ⟨done.2, List.forall_mem_nil _⟩⟩
    | cons p work => simp [unifyAll] at e
  | succ fuel ih =>
    cases work with
    | nil =>
      simp only [unifyAll, Except.ok.injEq, Prod.mk.injEq] at e
      obtain ⟨rfl, rfl⟩ := e
      exact ⟨fun solves => ⟨rfl, solves.heap⟩, fun done => ⟨done.2, List.forall_mem_nil _⟩⟩
    | cons p work =>
      obtain ⟨a, b⟩ := p
      rw [unifyAll_cons, Halt.bind_eq_ok] at e
      obtain ⟨o, turned, rest⟩ := e
      obtain ⟨x, y, ax, bY, met⟩ := Met.of_unifyTurn turned
      cases o with
      | some next =>
        rw [confined.solves_turn ax bY met]
        exact ih (confined.turn ax bY met) rest
      | none =>
        cases rest
        exact iff_of_false (confined.not_solves ax bY met) (by simp)

end Store

end HornMachine
