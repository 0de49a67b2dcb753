import HornMachine.Proofs.Solutions

/-!
# Most general unifiers

Read over finite trees, a goal and a head can be made equal exactly when unification
succeeds, and what it binds excludes none of the ways to make them equal. Where they
can be made equal, a solution also shows that unification ends: no binding changes what
a cell stands for, and opening two structures replaces a tree on the work list by its
parts. There is no occurs check, so without a solution it may go on for ever.

The equations are those of the cells that can be reached from the goal and the head.
Only there does it matter what lies on the heap.
-/
namespace HornMachine

/-- Finite trees over cells. -/
inductive Tree
  | leaf (cell : Cell)
  | node (items : List Tree)

namespace Tree

def reading : Reading Tree where
  leaf := .leaf
  array := .node
  atom _ := True
  leaf_inj _ _ := leaf.inj
  leaf_ne _ := nofun
  array_inj := node.inj

mutual

/-- Number of leaves and arrays. -/
def nodes : Tree → Nat
  | .leaf _ => 1
  | .node ts => nodesItems ts + 1

def nodesItems : List Tree → Nat
  | [] => 0
  | t :: ts => nodes t + nodesItems ts

end

theorem nodes_pos (t : Tree) : 0 < t.nodes := by
  cases t with
  | leaf _ => exact Nat.one_pos
  | node ts => exact Nat.succ_pos _

theorem nodesItems_eq (ts : List Tree) : nodesItems ts = (ts.map nodes).sum := by
  induction ts with
  | nil => rfl
  | cons t ts ih => rw [nodesItems, ih, List.map_cons, List.sum_cons]

theorem nodes_node (ts : List Tree) : (node ts).nodes = (ts.map nodes).sum + 1 := by
  rw [nodes, nodesItems_eq]

end Tree

namespace Heap

/-- The addresses a cell refers to: the target of a variable, or the elements of a
structure. -/
inductive Refers (h : Heap) : Cell → Nat → Prop
  | target {c : Cell} : c.isVar = true → Refers h c c.addr
  | element {c : Cell} {n i : Nat} : c.tag = .structRef → h.arity c = some n → i < n →
      Refers h c (c.addr + 1 + i)

/-- The addresses that can be reached from some cells. -/
inductive Reaches (h : Heap) (roots : List Cell) : Nat → Prop
  | root {c : Cell} {a : Nat} : c ∈ roots → h.Refers c a → Reaches h roots a
  | step {a b : Nat} {c : Cell} : Reaches h roots a → h.get? a = some c → h.Refers c b →
      Reaches h roots b

/-- What a cell refers to lies on the heap. -/
structure Placed (h : Heap) (c : Cell) : Prop where
  var : c.isVar = true → c.addr < h.top
  ref : c.tag = .structRef → h.Complete c.addr

/-- Variables never point upwards, and references lead to complete structures. -/
structure WellFormed (h : Heap) : Prop where
  down : ∀ a c, h.get? a = some c → c.isVar = true → c.addr ≤ a
  refs : ∀ a c, h.get? a = some c → c.tag = .structRef → h.Complete c.addr

instance (h : Heap) (c : Cell) : Decidable (h.Placed c) :=
  decidable_of_iff ((c.isVar = true → c.addr < h.top) ∧ (c.tag = .structRef → h.Complete c.addr))
    ⟨fun ⟨var, ref⟩ => ⟨var, ref⟩, fun placed => ⟨placed.var, placed.ref⟩⟩

instance (h : Heap) : Decidable h.WellFormed :=
  decidable_of_iff (∀ a ∈ List.range h.top, ∀ c ∈ h.get? a,
      (c.isVar = true → c.addr ≤ a) ∧ (c.tag = .structRef → h.Complete c.addr))
    ⟨fun all =>
      have each {a : Nat} {c : Cell} (found : h.get? a = some c) :=
        all a (List.mem_range.mpr (lt_top_of_get? found)) c found
      ⟨fun _ _ found => (each found).1, fun _ _ found => (each found).2⟩,
    fun wellFormed a _ c found => ⟨wellFormed.down a c found, wellFormed.refs a c found⟩⟩

/-- The valuation solves what can be reached from the two cells, and gives both the same
tree. -/
structure UnifiedBy (h : Heap) (v : Nat → Tree) (goal head : Cell) : Prop where
  solved : h.SolvedBy Tree.reading (h.Reaches [goal, head]) v
  same : h.value Tree.reading v goal = h.value Tree.reading v head

/-- The region lies on the heap, and its chains end. -/
def EndsOn (h : Heap) (R : Nat → Prop) : Prop :=
  ∀ a, R a → ∃ c x, h.get? a = some c ∧ h.Leads c x

variable {T : Type} {r : Reading T} {h k : Heap} {c e u : Cell} {roots : List Cell}
  {R : Nat → Prop}

theorem WellFormed.placed (wellFormed : h.WellFormed) {a : Nat} (found : h.get? a = some c) :
    h.Placed c where
  var isVar := (wellFormed.down a c found isVar).trans_lt (lt_top_of_get? found)
  ref := wellFormed.refs a c found

theorem WellFormed.exists_leads (wellFormed : h.WellFormed) (placed : h.Placed c) :
    ∃ x, h.Leads c x := by
  refine exists_leads_of_down (P := h.Placed) placed fun c placed isVar => ?_
  obtain ⟨d, found⟩ := exists_get? (placed.var isVar)
  exact ⟨d, found, wellFormed.placed found, wellFormed.down _ d found⟩

theorem Placed.lt_top (placed : h.Placed c) {a : Nat} (refers : h.Refers c a) : a < h.top := by
  cases refers with
  | target isVar => exact placed.var isVar
  | element tag arity inside =>
    obtain ⟨n, header, bound⟩ := placed.ref tag
    have limit := h.top_lt
    obtain rfl := Option.some.inj (arity.symm.trans (arity_of_header header (by omega)))
    omega

theorem Placed.inside (placed : h.Placed c) (refers : ∀ a, h.Refers c a → R a) :
    h.Inside Tree.reading R c where
  var isVar := refers _ (.target isVar)
  ref tag := by
    obtain ⟨n, header, bound⟩ := placed.ref tag
    have limit := h.top_lt
    exact ⟨n, header, bound, fun i inside =>
      refers _ (.element tag (arity_of_header header (by omega)) inside)⟩
  atom _ _ := trivial

/-- What can be reached is a region of its own, and its chains end. -/
theorem WellFormed.endsOn (wellFormed : h.WellFormed) (placed : ∀ c ∈ roots, h.Placed c) :
    h.EndsOn (h.Reaches roots) := by
  intro a reaches
  have inside : a < h.top := by
    cases reaches with
    | root member refers => exact (placed _ member).lt_top refers
    | step _ found refers => exact (wellFormed.placed found).lt_top refers
  obtain ⟨c, found⟩ := exists_get? inside
  obtain ⟨x, leads⟩ := wellFormed.exists_leads (wellFormed.placed found)
  exact ⟨c, x, found, leads⟩

theorem EndsOn.exists_leads (ends : h.EndsOn R) (inside : h.Inside r R c) :
    ∃ x, h.Leads c x :=
  exists_leads_of_target fun isVar => ends c.addr (inside.var isVar)

theorem Binding.endsOn (binding : h.Binding k u e) (ends : h.EndsOn R) : k.EndsOn R := by
  intro a low
  rw [binding.get?]
  split
  · exact ⟨e, e, rfl, binding.leads binding.ended binding.other⟩
  · obtain ⟨c, x, found, leads⟩ := ends a low
    obtain ⟨y, kept⟩ := binding.exists_leads leads
    exact ⟨c, y, found, kept⟩

/-- How much is left to do: the sizes of the trees the left sides stand for. -/
def weight (h : Heap) (v : Nat → Tree) (work : List (Cell × Cell)) : Nat :=
  (work.map fun p => (h.value Tree.reading v p.1).nodes).sum

theorem weight_cons {v : Nat → Tree} {a b : Cell} {work : List (Cell × Cell)} :
    h.weight v ((a, b) :: work) = (h.value Tree.reading v a).nodes + h.weight v work := rfl

end Heap

namespace Store

variable {boundary fuel : Nat} {s t : Store} {work queued : List (Cell × Cell)}
  {a b x y goal head : Cell} {R : Nat → Prop} {v : Nat → Tree}

theorem weight_pushElements {h : Heap} {m n count : Nat}
    (solved : h.SolvedBy Tree.reading R v) (elements : ∀ i, i < count → R (m + 1 + i))
    (pushed : pushElements h m n count work = .ok queued) :
    h.weight v queued ≤
      h.weight v work + ((List.range count).map fun i => (v (m + 1 + i)).nodes).sum := by
  induction count generalizing work with
  | zero =>
    cases pushed
    exact Nat.le_add_right ..
  | succ count ih =>
    simp only [pushElements, Halt.bind_eq_ok, Heap.read_eq_ok] at pushed
    obtain ⟨c, atM, d, -, pushed⟩ := pushed
    rw [show m + (count + 1) = m + 1 + count by omega] at atM
    have size := congrArg Tree.nodes (solved _ c (elements count (Nat.lt_succ_self count)) atM)
    have rest := ih (fun i inside => elements i (Nat.lt_succ_of_lt inside)) pushed
    have first : h.weight v (if c = d then work else (c, d) :: work) ≤
        (v (m + 1 + count)).nodes + h.weight v work := by
      split
      · exact Nat.le_add_left ..
      · rw [Heap.weight_cons, size]
    rw [List.range_succ, List.map_append, List.sum_append]
    simp only [List.map_cons, List.map_nil, List.sum_cons, List.sum_nil]
    omega

/-- A turn takes a tree off the work list, and at most puts its elements there. -/
theorem Confined.weight_turn (confined : Confined Tree.reading R ((a, b) :: work) s)
    (solves : Solves Tree.reading R v ((a, b) :: work) s) (ax : s.heap.Leads a x)
    (bY : s.heap.Leads b y) (met : Met boundary s work x y (some (queued, t))) :
    t.heap.weight v queued < s.heap.weight v ((a, b) :: work) := by
  rw [Heap.weight_cons]
  have positive := Tree.nodes_pos (s.heap.value Tree.reading v a)
  cases met with
  | same _ => exact Nat.lt_add_of_pos_left positive
  | @bound u e _ other sides isVar _ bound =>
    have binding := binding_of_bound ax bY other sides isVar bound
    have kept : t.heap.weight v work = s.heap.weight v work :=
      congrArg List.sum <| List.map_congr_left fun p member =>
        congrArg Tree.nodes (binding.value_eq (confined.tail.pairs p member).1)
    rw [kept]
    exact Nat.lt_add_of_pos_left positive
  | @opened c _ _ tagX tagY atX atY pushed =>
    obtain ⟨bound, -, header, elements⟩ := confined.opened ax bY tagX tagY atX atY
    have inside := (confined.pairs (a, b) (.head _)).1
    have opened := weight_pushElements solves.heap (fun i inside => (elements i inside).1) pushed
    have tree : (s.heap.value Tree.reading v a).nodes =
        ((List.range c.addr).map fun i => (v (x.addr + 1 + i)).nodes).sum + 1 := by
      rw [ax.value_eq confined.closed solves.heap inside,
        Heap.value_ref tagX (header ▸ atX) bound]
      exact (Tree.nodes_node _).trans (by rw [List.map_map]; rfl)
    omega

theorem Met.endsOn (met : Met boundary s work x y (some (queued, t))) (ends : s.heap.EndsOn R)
    (ax : s.heap.Leads a x) (bY : s.heap.Leads b y) : t.heap.EndsOn R := by
  cases met with
  | same _ => exact ends
  | opened _ _ _ _ _ _ => exact ends
  | bound other sides isVar _ bound =>
    exact (binding_of_bound ax bY other sides isVar bound).endsOn ends

/-- A solution shows that unification ends, and succeeds: every turn lowers the weight. -/
theorem Confined.exists_unifyAll (confined : Confined Tree.reading R work s)
    (ends : s.heap.EndsOn R) (solves : Solves Tree.reading R v work s) (boundary : Nat)
    (enough : s.heap.weight v work ≤ fuel) :
    ∃ t, unifyAll boundary fuel work s = .ok (true, t) := by
  induction fuel generalizing work s with
  | zero =>
    cases work with
    | nil => exact ⟨s, rfl⟩
    | cons p work =>
      obtain ⟨a, b⟩ := p
      have positive := Tree.nodes_pos (s.heap.value Tree.reading v a)
      rw [Heap.weight_cons] at enough
      omega
  | succ fuel ih =>
    cases work with
    | nil => exact ⟨s, rfl⟩
    | cons p work =>
      obtain ⟨a, b⟩ := p
      obtain ⟨insideA, insideB⟩ := confined.pairs (a, b) (.head _)
      obtain ⟨x, ax⟩ := ends.exists_leads insideA
      obtain ⟨y, bY⟩ := ends.exists_leads insideB
      obtain ⟨insideX, insideY⟩ := confined.ends ax bY
      obtain ⟨o, turned⟩ := exists_unifyTurn ax bY insideX.complete insideY.complete boundary work
      obtain ⟨x', y', ax', bY', met⟩ := Met.of_unifyTurn turned
      rw [unifyAll_cons, turned, Halt.ok_bind]
      cases o with
      | none => exact absurd solves (confined.not_solves ax' bY' met)
      | some next =>
        have lower := confined.weight_turn solves ax' bY' met
        exact ih (confined.turn ax' bY' met) (met.endsOn ends ax' bY')
          ((confined.solves_turn ax' bY' met).mp solves) (by omega)

theorem solves_iff : Solves Tree.reading (s.heap.Reaches [goal, head]) v [(goal, head)] s ↔
    s.heap.UnifiedBy v goal head :=
  ⟨fun solves => ⟨solves.heap, solves.pairs (goal, head) (.head _)⟩,
    fun unified => ⟨unified.solved, List.forall_mem_singleton.mpr unified.same⟩⟩

/-- If some finite trees make the goal and the head equal, unification ends, after at most
as many turns as the common tree has nodes, and succeeds. On success the solutions of the
heap it leaves are the ways to make the two equal, none lost and none added, and on
failure there is none. How variables that point at themselves are tagged makes no
difference, nor what lies between the structures. -/
theorem unify_mostGeneral (wellFormed : s.heap.WellFormed) (placedGoal : s.heap.Placed goal)
    (placedHead : s.heap.Placed head) (boundary : Nat) :
    (∀ v, s.heap.UnifiedBy v goal head →
      ∀ fuel, (s.heap.value Tree.reading v goal).nodes ≤ fuel →
        ∃ t, s.unify fuel boundary goal head = .ok (true, t)) ∧
    (∀ fuel t, s.unify fuel boundary goal head = .ok (true, t) →
      ∀ v, s.heap.UnifiedBy v goal head ↔
        t.heap.SolvedBy Tree.reading (s.heap.Reaches [goal, head]) v) ∧
    ∀ fuel t, s.unify fuel boundary goal head = .ok (false, t) →
      ∀ v, ¬ s.heap.UnifiedBy v goal head := by
  have placed : ∀ c ∈ [goal, head], s.heap.Placed c :=
    List.forall_mem_cons.mpr ⟨placedGoal, List.forall_mem_singleton.mpr placedHead⟩
  have inside : ∀ c ∈ [goal, head], s.heap.Inside Tree.reading (s.heap.Reaches [goal, head]) c :=
    fun c member => (placed c member).inside fun _ refers => .root member refers
  have confined : Confined Tree.reading (s.heap.Reaches [goal, head]) [(goal, head)] s :=
    ⟨fun a c reaches found => (wellFormed.placed found).inside fun _ => reaches.step found,
      List.forall_mem_singleton.mpr ⟨inside goal (by simp), inside head (by simp)⟩⟩
  have ends := wellFormed.endsOn placed
  refine ⟨fun v unified fuel enough => ?_, fun fuel t returned v => ?_,
    fun fuel t returned v unified => ?_⟩
  · exact confined.exists_unifyAll ends (solves_iff.mpr unified) boundary enough
  · rw [← solves_iff, confined.solves_unifyAll returned]
    exact and_iff_right rfl
  · exact Bool.false_ne_true ((confined.solves_unifyAll returned).mp (solves_iff.mpr unified)).1

/-- The goal `f(X, Y, X)` and the head `f(Z, g(Z), b)`. -/
def sharing : Store where
  heap := ⟨#[.header 4, .constant 0, .var 2, .var 3, .varRef 2,
    .header 4, .constant 0, .var 7, .structRef 10, .constant 1,
    .header 2, .constant 2, .varRef 7], by decide⟩
  trail := {}

/-- Both stand for `f(b, g(b), b)`. -/
def sharingTrees : Nat → Tree
  | 0 | 5 => .leaf (.header 4)
  | 1 | 6 => .leaf (.constant 0)
  | 3 | 8 => .node [.leaf (.constant 2), .leaf (.constant 1)]
  | 10 => .leaf (.header 2)
  | 11 => .leaf (.constant 2)
  | _ => .leaf (.constant 1)

theorem unify_mostGeneral_sharing :
    sharing.heap.WellFormed ∧ sharing.heap.Placed (.structRef 0) ∧
    sharing.heap.Placed (.structRef 5) ∧
    sharing.heap.UnifiedBy sharingTrees (.structRef 0) (.structRef 5) ∧
    ∃ t, sharing.unify 7 20 (.structRef 0) (.structRef 5) = .ok (true, t) ∧
      t.heap.SolvedBy Tree.reading (sharing.heap.Reaches [.structRef 0, .structRef 5])
        sharingTrees := by
  have wellFormed : sharing.heap.WellFormed := by decide +kernel
  have goal : sharing.heap.Placed (.structRef 0) := by decide +kernel
  have head : sharing.heap.Placed (.structRef 5) := by decide +kernel
  have solution : sharing.heap.UnifiedBy sharingTrees (.structRef 0) (.structRef 5) := by
    refine ⟨fun a c _ found => ?_, rfl⟩
    have inside : a < 13 := Heap.lt_top_of_get? found
    interval_cases a <;> cases found <;> rfl
  obtain ⟨succeeds, solutions, -⟩ := unify_mostGeneral wellFormed goal head 20
  obtain ⟨t, returned⟩ := succeeds sharingTrees solution 7 (by decide)
  exact ⟨wellFormed, goal, head, solution, t, returned,
    (solutions 7 t returned sharingTrees).mp solution⟩

end Store

end HornMachine
