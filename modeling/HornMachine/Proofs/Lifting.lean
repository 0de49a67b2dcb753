import HornMachine.Proofs.KeyTrees
import HornMachine.Proofs.WholeCopies

/-!
# Lifting instances of rules

Suppose a goal stands for the tree of the head of an instance of a rule. Then the
keys do not rule the rule out, its head does not clash with the goal, and when the
goal is resolved with it the heap is solved by the valuation that gives the copied
variables the trees of the instance. Nothing of this depends on how much of the
code is copied before the heads are unified.
-/
namespace HornMachine

variable {w : Codes} {t : Symbols} {rules : List Sentence} {p : Program} {h k : Heap}
  {u : Store} {code : ClauseCode} {head : Element} {body : List Element} {σ : String → Term}
  {x : Term} {goal : Cell} {keys : Keys} {id n fuel positions : Nat} {v : Nat → Term}

/-- The tree `x` is the head of an instance of the rule `id` whose equations are
solved and whose goals are derivable. -/
structure Codes.Instance (w : Codes) (t : Symbols) (rules : List Sentence) (id : Nat)
    (code : ClauseCode) (head : Element) (body : List Element) (σ : String → Term) (x : Term) :
    Prop where
  rule : w.rules[id]? = some code
  renders : Renders t (head :: body) code
  solves : ∀ e ∈ body, Element.Solves σ e
  derivable : ∀ e ∈ body, isEquation e = false → Derivable rules (Element.tree σ e)
  tree : Element.tree σ head = x

theorem Codes.MadeFrom.exists_instance (made : w.MadeFrom t rules) (derived : Derivable rules x) :
    ∃ id code head body σ, w.Instance t rules id code head body σ x := by
  cases derived with
  | @rule s head body σ member expanded solves goals =>
    obtain ⟨id, code, es, rule, expanded', renders⟩ := made.exists_rule member
    obtain rfl : es = head :: body := Except.ok.inj (expanded'.symm.trans expanded)
    exact ⟨id, code, head, body, σ, rule, renders, solves, goals, rfl⟩

theorem Heap.Safe.size_lt (safe : h.Safe w) (rule : w.rules[id]? = some code) :
    code.size < 2 ^ 60 := by
  have below := Codes.base_add_size_le rule
  have low := safe.low
  have limit := h.top_lt
  omega

namespace Codes.Instance

variable (inst : w.Instance t rules id code head body σ x)
include inst

theorem solved (made : w.MadeFrom t rules) (safe : h.Safe w) (copied : code.Copied n h k)
    (cut : code.Cut n) (positive : 0 < n) (term : h.IsTerm w.floor w.count goal)
    (consistent : h.Consistent t w.floor v) (same : h.treeOf t v goal = x) :
    k.Consistent t w.floor (extension (head :: body) σ h.top v) ∧
      k.treeOf t (extension (head :: body) σ h.top v) goal =
        k.treeOf t (extension (head :: body) σ h.top v) (code.head.relocate h.top) := by
  obtain ⟨first, rest, list, goal'⟩ := inst.renders.head
  obtain ⟨rfl, rfl⟩ := List.cons.inj list
  have closed := safe.closed
  rw [made.count] at closed
  have solves : ∀ e ∈ head :: body, Element.Solves σ e :=
    List.forall_mem_cons.mpr ⟨Element.solves_of_not_equation σ goal', inst.solves⟩
  have small := safe.size_lt inst.rule
  refine ⟨inst.renders.consistent_extension made.sound copied cut small closed
    solves consistent, ?_⟩
  rw [treeOf_extension term (.append copied), same,
    inst.renders.head_tree copied cut (reads_extension (head :: body) σ h.top v) positive,
    inst.tree]

theorem admits (made : w.MadeFrom t rules) (safe : h.Safe w)
    (term : h.IsTerm w.floor w.count goal) (tag : goal.tag = .structRef)
    (consistent : h.Consistent t w.floor v) (same : h.treeOf t v goal = x)
    (exact : Keys.ofRef h goal positions = .ok keys) :
    keys.admits (code.keys code.head positions) = true := by
  have closed := safe.closed
  rw [made.count] at closed term
  obtain ⟨xs, tree, fits⟩ := Keys.fits_ofRef made.sound closed consistent term tag exact
  rw [same, ← inst.tree, Element.tree, Term.array.injEq] at tree
  subst tree
  exact fits.admits made.sound.distinct
    (inst.renders.fits_keys made.sound (safe.size_lt inst.rule) inst.solves positions)

theorem not_refuted (made : w.MadeFrom t rules) (runs : p.Runs w) (safe : u.heap.Safe w)
    (term : u.heap.IsTerm w.floor w.count goal) (tag : goal.tag = .structRef)
    (consistent : u.heap.Consistent t w.floor v) (same : u.heap.treeOf t v goal = x)
    (exact : Keys.ofRef u.heap goal p.settings.positions = .ok keys) :
    ¬ p.Refuted goal keys u id := by
  intro refuted
  obtain ⟨c, found, clash⟩ := refuted
  rw [runs.clause id code inst.rule, Option.some.injEq] at found
  subst found
  obtain ⟨work, copied, s, headed, unify⟩ :=
    clash (inst.admits made safe term tag consistent same exact)
  have usable := runs.rule_usable inst.rule
  rw [safe.copiedHead inst.rule usable] at headed
  rw [head_relocate (safe.base_le inst.rule)] at unify
  have within := safe.within usable usable.cut usable.head_lt headed term u.trail
  rw [made.count] at within
  obtain ⟨consistent', equal⟩ := inst.solved made safe headed usable.cut
    (Nat.zero_lt_of_lt usable.head_lt) term consistent same
  have solved := (within.solved_unifyAll (v := extension (head :: body) σ u.heap.top v)
    made.sound unify).mp
    ⟨consistent', fun pair member => by rw [List.mem_singleton.mp member]; exact equal⟩
  cases solved.1

/-- Resolving the goal with the rule leaves a heap that the extended valuation
solves, and goals that stand for derivable trees. -/
theorem attempted (made : w.MadeFrom t rules) (safe : h.Safe w) (usable : code.Usable w.count)
    (term : h.IsTerm w.floor w.count goal) (consistent : h.Consistent t w.floor v)
    (same : h.treeOf t v goal = x) (e : code.attempt fuel goal h = .ok (true, k)) :
    k.Consistent t w.floor (extension (head :: body) σ h.top v) ∧
      (∀ g, h.IsTerm w.floor w.count g →
        k.treeOf t (extension (head :: body) σ h.top v) g = h.treeOf t v g) ∧
      ∀ g ∈ code.body, Derivable rules
        (k.treeOf t (extension (head :: body) σ h.top v) (g.relocate h.top)) := by
  obtain ⟨full, whole, keeps, solved⟩ :=
    safe.attempt_solved made.sound made.count usable term e
  have cut := usable.linked.cut_size
  obtain ⟨consistent', equal⟩ := inst.solved made safe whole cut
    (Nat.zero_lt_of_lt (usable.head_lt.trans_le usable.headLen_le)) term consistent same
  refine ⟨((solved _).mp ⟨consistent', equal⟩).2, fun g old => ?_, fun g member => ?_⟩
  · have kept : Heap.Keeps w.floor h full := .append whole
    rw [(old.mono kept).treeOf_keeps keeps, treeOf_extension old kept]
  · obtain ⟨tag, m, block⟩ := usable.linked.goal g (usable.mem_goals member)
    have copy : full.IsTerm w.floor w.count (g.relocate h.top) :=
      (whole.refTerm cut safe.low tag block (by have := block.lt_size; omega)).1
    obtain ⟨e, inside, goal', tree⟩ := inst.renders.body_tree whole cut
      (reads_extension (head :: body) σ h.top v) member
    rw [copy.treeOf_keeps keeps, tree]
    exact inst.derivable e inside goal'

end Codes.Instance

end HornMachine
