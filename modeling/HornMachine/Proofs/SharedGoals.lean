import HornMachine.GoalList
import HornMachine.Proofs.Sessions

/-!
# The goals on the stack share their tails

A choice point keeps its goals as a list of its own. Kept as shared lists, the goals
of a new choice point are the body goals in front of what the choice point below has
behind its first goal. Nodes get their numbers in the order in which they are made, so a
number stands for one node and all behind it, and the lists on the stack are the same
list when they start at the same node.
-/
namespace HornMachine

namespace GoalList

variable {goals : List Cell} {l m tail : GoalList} {lists lists' : List GoalList}
  {next next' : Nat}

@[simp] theorem toList_tail (l : GoalList) : l.tail.toList = l.toList.tail := List.map_tail

@[simp] theorem head?_toList (l : GoalList) : l.toList.head? = l.head? := List.head?_map

@[simp] theorem isEmpty_toList (l : GoalList) : l.toList.isEmpty = l.isEmpty := List.isEmpty_map

@[simp] theorem length_toList (l : GoalList) : l.toList.length = l.length := List.length_map _

theorem prepend_cons (goal : Cell) (goals : List Cell) (tail : GoalList) :
    prepend (goal :: goals) tail = prepend goals tail >>= cons goal := by
  simp [prepend, List.foldlM_append]

theorem run_prepend_cons {goal : Cell} (made : (prepend (goal :: goals) tail).run next = (l, next')) :
    ∃ k n, (prepend goals tail).run next = (k, n) ∧ l = ⟨⟨n, goal⟩ :: k.nodes⟩ ∧ next' = n + 1 := by
  rw [prepend_cons, StateT.run_bind] at made
  cases made
  exact ⟨_, _, rfl, rfl, rfl⟩

theorem toList_prepend (made : (prepend goals tail).run next = (l, next')) :
    l.toList = goals ++ tail.toList := by
  induction goals generalizing l next' with
  | nil =>
    cases made
    rfl
  | cons goal goals ih =>
    obtain ⟨k, n, earlier, rfl, rfl⟩ := run_prepend_cons made
    exact congrArg (goal :: ·) (ih earlier)

/-- What holds of the tail and is kept by every node that is made holds of the list. -/
theorem prepend_keeps {I : Nat → GoalList → Prop}
    (made : (prepend goals tail).run next = (l, next')) (start : I next tail)
    (node : ∀ n k goal, I n k → I (n + 1) ⟨⟨n, goal⟩ :: k.nodes⟩) : I next' l := by
  induction goals generalizing l next' with
  | nil =>
    cases made
    exact start
  | cons goal goals ih =>
    obtain ⟨k, n, earlier, rfl, rfl⟩ := run_prepend_cons made
    exact node n k goal (ih earlier)

/-- Nothing behind the new goals is copied. -/
theorem suffix_prepend (made : (prepend goals tail).run next = (l, next')) :
    tail.nodes <:+ l.nodes :=
  prepend_keeps (I := fun _ k => tail.nodes <:+ k.nodes) made (List.suffix_refl _)
    fun _ _ _ kept => kept.trans (List.suffix_cons _ _)

/-! ### One number, one node -/

/-- The nodes have numbers below `next`, and a number stands for one node and what is
behind it. -/
structure Shared (next : Nat) (lists : List GoalList) : Prop where
  below : ∀ l ∈ lists, ∀ x ∈ l.nodes, x.number < next
  agree : ∀ l ∈ lists, ∀ m ∈ lists, ∀ x xs y ys, x :: xs <:+ l.nodes → y :: ys <:+ m.nodes →
    x.number = y.number → x :: xs = y :: ys

namespace Shared

theorem subset (shared : Shared next lists) (part : lists' ⊆ lists) : Shared next lists' where
  below l member := shared.below l (part member)
  agree l left m right := shared.agree l (part left) m (part right)

theorem empty (next : Nat) : Shared next [empty] := by
  constructor <;> simp [GoalList.empty]

/-- A list with an end of one of the others. -/
theorem suffix (shared : Shared next lists) (member : m ∈ lists) (behind : l.nodes <:+ m.nodes) :
    Shared next (l :: lists) := by
  have whole {k : GoalList} (listed : k ∈ l :: lists) : ∃ k' ∈ lists, k.nodes <:+ k'.nodes := by
    obtain rfl | listed := List.mem_cons.mp listed
    · exact ⟨m, member, behind⟩
    · exact ⟨k, listed, List.suffix_refl _⟩
  constructor
  · intro k listed x inside
    obtain ⟨k', listed, part⟩ := whole listed
    exact shared.below k' listed x (part.subset inside)
  · intro k left k' right x xs y ys first second
    obtain ⟨u, left, part⟩ := whole left
    obtain ⟨v, right, part'⟩ := whole right
    exact shared.agree u left v right x xs y ys (first.trans part) (second.trans part')

theorem cons (shared : Shared next (l :: lists)) (goal : Cell) :
    Shared (next + 1) (⟨⟨next, goal⟩ :: l.nodes⟩ :: lists) := by
  have split {k : GoalList} {x : GoalNode} {xs : List GoalNode}
      (listed : k ∈ (⟨⟨next, goal⟩ :: l.nodes⟩ : GoalList) :: lists) (ending : x :: xs <:+ k.nodes) :
      x :: xs = ⟨next, goal⟩ :: l.nodes ∨ ∃ k' ∈ l :: lists, x :: xs <:+ k'.nodes := by
    obtain rfl | listed := List.mem_cons.mp listed
    · obtain whole | ending := List.suffix_cons_iff.mp ending
      · exact .inl whole
      · exact .inr ⟨l, List.mem_cons_self, ending⟩
    · exact .inr ⟨k, List.mem_cons_of_mem _ listed, ending⟩
  have older {k : GoalList} {x : GoalNode} {xs : List GoalNode} (listed : k ∈ l :: lists)
      (ending : x :: xs <:+ k.nodes) : x.number < next :=
    shared.below k listed x (ending.subset List.mem_cons_self)
  constructor
  · intro k listed x inside
    obtain ⟨before, xs, nodes⟩ := List.append_of_mem inside
    obtain whole | ⟨k', listed, ending⟩ := split listed ⟨before, nodes.symm⟩
    · cases whole
      exact Nat.lt_succ_self next
    · exact Nat.lt_succ_of_lt (older listed ending)
  · intro k left k' right x xs y ys first second same
    obtain whole | ⟨u, left, first⟩ := split left first <;>
      obtain whole' | ⟨v, right, second⟩ := split right second
    · exact whole.trans whole'.symm
    · cases whole
      exact absurd same.symm (older right second).ne
    · cases whole'
      exact absurd same (older left first).ne
    · exact shared.agree u left v right x xs y ys first second same

theorem prepend (shared : Shared next (tail :: lists))
    (made : (prepend goals tail).run next = (l, next')) : Shared next' (l :: lists) :=
  prepend_keeps (I := fun n k => Shared n (k :: lists)) made shared
    fun _ _ goal kept => kept.cons goal

theorem same_iff (shared : Shared next lists) (left : l ∈ lists) (right : m ∈ lists) :
    l.same m = true ↔ l = m := by
  constructor
  · intro same
    obtain ⟨_ | ⟨x, xs⟩⟩ := l <;> obtain ⟨_ | ⟨y, ys⟩⟩ := m
    · rfl
    · cases of_decide_eq_true same
    · cases of_decide_eq_true same
    · have numbers := Option.some.inj (of_decide_eq_true same)
      rw [shared.agree _ left _ right x xs y ys (List.suffix_refl _) (List.suffix_refl _) numbers]
  · rintro rfl
    exact decide_eq_true rfl

end Shared

/-! ### The lists of a stack -/

/-- The lists of a stack, latest first, and the number of the next node. -/
inductive Stacked : Nat → List GoalList → Prop
  | none : Stacked 0 []
  | started {next next' : Nat} {body : List Cell} {l : GoalList} : Stacked next [] →
      (ofList body).run next = (l, next') → Stacked next' [l]
  | pushed {next next' : Nat} {body : List Cell} {l m : GoalList} {lists : List GoalList} :
      Stacked next (m :: lists) → (prepend body m.tail).run next = (l, next') →
      Stacked next' (l :: m :: lists)
  | dropped {next : Nat} {m : GoalList} {lists : List GoalList} :
      Stacked next (m :: lists) → Stacked next lists

namespace Stacked

theorem shared (stacked : Stacked next lists) : Shared next lists := by
  induction stacked with
  | none => exact ⟨nofun, nofun⟩
  | started _ made _ => exact (Shared.empty _).prepend made
  | pushed _ made ih =>
    exact (ih.suffix List.mem_cons_self (List.tail_suffix _)).prepend made
  | dropped _ ih => exact ih.subset (List.subset_cons_self _ _)

theorem chain (stacked : Stacked next lists) :
    lists.IsChain fun l m => m.tail.nodes <:+ l.nodes := by
  induction stacked with
  | none => exact .nil
  | started _ _ _ => exact .singleton _
  | pushed _ made ih => exact .cons_cons (suffix_prepend made) ih
  | dropped _ ih => exact ih.of_cons

theorem cleared (stacked : Stacked next lists) : Stacked next [] := by
  induction lists with
  | nil => exact stacked
  | cons l lists ih => exact ih stacked.dropped

end Stacked

end GoalList

/-! ### The goals of a search -/

namespace Moment

/-- The goal that is being resolved. -/
def trial? : Moment → Option Trial
  | trying t _ | unifying t _ _ _ | resolved t _ _ _ => some t
  | choosing _ _ | ended _ _ _ => none

/-- The lists hold the goals on the stack, and the goal that is being resolved is the
first one of the latest list. -/
structure KeptIn (a : Moment) (lists : List GoalList) : Prop where
  goals : lists.map (·.toList) = a.stack.map (·.point.goals)
  tried : ∀ trial, a.trial? = some trial →
    ∃ l, lists.head? = some l ∧ l.head? = some trial.goal ∧ l.tail.toList = trial.rest

end Moment

namespace Program

variable {p : Program} {queryHead : Cell} {a b : Moment} {lists : List GoalList} {next : Nat}

theorem prepare_goals {h : Heap} {goal : Cell} {keys : Keys} {point left : ChoicePoint}
    (prepared : p.prepare h goal point = .ok (keys, left)) : left.goals = point.goals := by
  unfold prepare at prepared
  split at prepared
  · cases prepared
    rfl
  · obtain ⟨keys, -, same⟩ := Halt.bind_eq_ok.mp prepared
    cases same
    rfl

theorem Turn.keptIn (turn : p.Turn queryHead a b) (stacked : GoalList.Stacked next lists)
    (kept : a.KeptIn lists) : ∃ next' lists', GoalList.Stacked next' lists' ∧ b.KeptIn lists' := by
  have dropped {top : Made} {below : List Made}
      (goals : lists.map (·.toList) = (top :: below).map (·.point.goals)) :
      ∃ lists', GoalList.Stacked next lists' ∧
        lists'.map (·.toList) = below.map (·.point.goals) := by
    obtain ⟨l, lists', rfl, -, same⟩ := List.map_eq_cons_iff.mp goals
    exact ⟨lists', stacked.dropped, same⟩
  cases turn with
  | finished => exact ⟨next, lists, stacked, kept.goals, nofun⟩
  | held _ _ =>
    obtain ⟨lists', stacked, same⟩ := dropped kept.goals
    exact ⟨next, lists', stacked, same, nofun⟩
  | prepared goals prepared =>
    have same := (prepare_goals prepared).trans goals
    obtain ⟨l, lists', rfl, held, below⟩ := List.map_eq_cons_iff.mp kept.goals
    have first := held.trans goals
    refine ⟨next, l :: lists', stacked, congrArg₂ List.cons (first.trans same.symm) below, ?_⟩
    intro _ tried
    cases tried
    exact ⟨l, rfl, by rw [← l.head?_toList, first]; rfl, by rw [l.toList_tail, first]; rfl⟩
  | dropped _ =>
    obtain ⟨lists', stacked, same⟩ := dropped kept.goals
    exact ⟨next, lists', stacked, same, nofun⟩
  | exhausted _ =>
    obtain ⟨lists', stacked, same⟩ := dropped kept.goals
    exact ⟨next, lists', stacked, same, nofun⟩
  | @passed trial _ untried =>
    refine ⟨next, lists, stacked, kept.goals, ?_⟩
    intro _ tried
    cases tried
    exact kept.tried trial rfl
  | @copied trial _ _ _ _ _ untried _ _ _ _ =>
    refine ⟨next, lists, stacked, kept.goals, ?_⟩
    intro _ tried
    cases tried
    exact kept.tried trial rfl
  | unified _ => exact ⟨next, lists, stacked, kept.goals, kept.tried⟩
  | met _ => exact ⟨next, lists, stacked, kept.goals, kept.tried⟩
  | clashed _ _ => exact ⟨next, lists, stacked, kept.goals, kept.tried⟩
  | answered _ => exact ⟨next, lists, stacked, kept.goals, nofun⟩
  | @advanced trial attempt body s _ =>
    obtain ⟨m, top, -, rest⟩ := kept.tried trial rfl
    obtain ⟨lists, rfl⟩ := List.head?_eq_some_iff.mp top
    obtain ⟨l, next', made⟩ : ∃ l next', (GoalList.prepend body m.tail).run next = (l, next') :=
      ⟨_, _, rfl⟩
    have goals : l.toList = body ++ trial.rest := by rw [GoalList.toList_prepend made, rest]
    exact ⟨next', l :: m :: lists, stacked.pushed made, congrArg₂ List.cons goals kept.goals, nofun⟩
  | rests => exact ⟨next, lists, stacked, kept⟩

end Program

namespace Machine

theorem During.exists_keptIn {m : Machine} {cs : List Call} {a : Moment} (during : m.During cs a) :
    ∃ next lists, GoalList.Stacked next lists ∧ a.KeptIn lists := by
  have started {next : Nat} (s : Store) (mark : Nat) (stacked : GoalList.Stacked next []) :
      ∃ next lists, GoalList.Stacked next lists ∧
        (Moment.choosing [⟨m.startPoint mark, s⟩] s).KeptIn lists := by
    obtain ⟨l, next', made⟩ : ∃ l next',
        (GoalList.ofList m.program.query.body).run next = (l, next') := ⟨_, _, rfl⟩
    refine ⟨next', [l], stacked.started made, ?_, nofun⟩
    exact congrArg (fun goals => [goals]) ((GoalList.toList_prepend made).trans (List.append_nil _))
  apply During.keeps (I := fun a => ∃ next lists, GoalList.Stacked next lists ∧ a.KeptIn lists)
    (started _ _ .none) _ _ _ _ during
  · intro cs a b _ before turn
    obtain ⟨next, lists, stacked, kept⟩ := before
    exact turn.keptIn stacked kept
  · intro cs o stack s _ before
    obtain ⟨next, lists, stacked, kept⟩ := before
    exact ⟨next, lists, stacked, kept.goals, nofun⟩
  · intro cs a origin stack s t _ before _
    obtain ⟨next, lists, stacked, kept⟩ := before
    exact ⟨next, lists, stacked, kept.goals, nofun⟩
  · intro cs stack s t _ before _
    obtain ⟨next, lists, stacked, -⟩ := before
    exact started _ _ stacked.cleared

/-- Between calls the goals of the choice points are shared lists, and two of them that
start at the same node are the same list. -/
theorem exists_shared_goals {settings : Settings} {text : String} {m n : Machine}
    {cs : List Call} {fuel : Nat}
    (e : ofText settings text = (.ok (.ok m) : Except Halt (Except LoadError Machine)))
    (returned : m.calls fuel cs = .ok n) :
    ∃ next lists, GoalList.Stacked next lists ∧
      lists.map (·.toList) = n.stack.map (·.goals) ∧
      lists.IsChain (fun l m => m.tail.nodes <:+ l.nodes) ∧
      ∀ k ∈ lists, ∀ l ∈ lists, k.same l = true ↔ k = l := by
  obtain ⟨ss, codes, t, -, -, -, loaded⟩ := LoadedFrom.of_ofText e
  obtain ⟨stack, s, session, rfl⟩ := loaded.session returned
  obtain ⟨next, lists, stacked, kept⟩ :=
    During.exists_keptIn (⟨stack, s, session, .refl⟩ : m.During cs (.choosing stack s))
  exact ⟨next, lists, stacked, kept.goals.trans (List.map_map ..).symm, stacked.chain,
    fun k left l right => stacked.shared.same_iff left right⟩

end Machine

end HornMachine
