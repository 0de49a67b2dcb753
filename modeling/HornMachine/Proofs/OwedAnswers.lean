import HornMachine.Proofs.SearchTrees
import HornMachine.Proofs.UncalledSearch
import Mathlib.Data.List.ReduceOption

/-!
# What a stack still owes

A branch owes the answers below its first goal, by the rules it has left for it, and
a stack owes what its branches owe, from the top down. A machine that has come to an
end has paid everything: each call of it answers the first term that is owed, and a
stack without branches owes nothing. So the answers of a finished machine are those
of the tree of its query, whatever index chose the candidates.
-/
namespace HornMachine

theorem filterMap_getElem?_range {α : Type} (l : List α) {n : Nat} (le : l.length ≤ n) :
    (List.range n).filterMap (l[·]?) = l := by
  induction l generalizing n with
  | nil => simp
  | cons a l ih =>
    obtain ⟨n, rfl⟩ := Nat.exists_eq_add_of_le' (Nat.le_of_add_left_le le)
    rw [List.range_succ_eq_map, List.filterMap_cons, List.filterMap_map]
    exact congrArg (a :: ·) (ih (Nat.le_of_succ_le_succ le))

namespace Program

/-- The rules left to a branch that unify with its first goal. -/
noncomputable def rulesLeft (p : Program) (w : Codes) (b : Branch) (goal : Cell) (keys : Keys) :
    List ClauseCode :=
  (p.live goal keys b.store (p.keyed keys b.point).pending).filterMap (w.rules[·]?)

/-- The terms that a stack of branches still has to answer. -/
inductive Owes (p : Program) (w : Codes) (queryHead : Cell) (floor : Store) :
    List Branch → List Term → Prop
  | nil : Owes p w queryHead floor [] []
  | barren {b : Branch} {bs : List Branch} {x : Term} {xs : List Term} :
      b.point.goals = [] → (current floor bs).heap.readout p.symbols b.point.head = .ok x →
      Owes p w queryHead floor bs xs → Owes p w queryHead floor (b :: bs) (x :: xs)
  | branch {b : Branch} {bs : List Branch} {goal : Cell} {rest : List Cell} {keys : Keys}
      {xs ys : List Term} : b.point.goals = goal :: rest →
      Keys.ofRef b.store.heap goal p.settings.positions = .ok keys →
      Yields w.rules p.symbols queryHead (p.rulesLeft w b goal keys) b.point.goals b.store.heap
        xs →
      Owes p w queryHead floor bs ys → Owes p w queryHead floor (b :: bs) (xs ++ ys)

variable {p : Program} {w : Codes} {s : Nat} {queryHead : Cell} {floor u : Store} {b : Branch}
  {bs bs' : List Branch} {o : Option (Answer × Store)} {t : Option Term}
  {ts : List (Option Term)} {xs : List Term} {r : Resolution} {left : ChoicePoint}

open Classical in
/-- All rules that unify with a goal are left to a new branch. -/
theorem rulesLeft_fresh (runs : p.Runs w) (uncalled : Uncalled w s) (indexed : p.Indexed)
    {head goal : Cell} {base mark : Nat} {rest : List Cell} {keys : Keys}
    (tame : Tame w s u.heap (goal :: rest))
    (exact : Keys.ofRef u.heap goal p.settings.positions = .ok keys) :
    p.rulesLeft w ⟨.fresh head base (goal :: rest) mark p.clauses.size, u⟩ goal keys =
      w.rules.filter fun code => ∃ fuel k, code.attempt fuel goal u.heap = .ok (true, k) := by
  change (p.live goal keys u (p.candidatesFor keys).toList).filterMap (w.rules[·]?) = _
  rw [live_candidatesFor indexed, live, List.filterMap_filter]
  have size : w.rules.length ≤ p.clauses.size := by
    rw [runs.size]
    omega
  conv_rhs => rw [← filterMap_getElem?_range w.rules size, List.filter_filterMap]
  refine List.filterMap_congr fun id _ => ?_
  have iff : p.Live goal keys u id ↔ _ := tame.live_iff uncalled runs exact
  cases rule : w.rules[id]? with
  | none => simp
  | some code => simp [iff, rule, Option.filter]

theorem Owes.fresh (runs : p.Runs w) (uncalled : Uncalled w s) (indexed : p.Indexed)
    {head : Cell} {base mark : Nat} {goals : List Cell} (tame : Tame w s u.heap goals)
    (barren : goals = [] → head = queryHead ∧ current floor bs = u)
    (owes : p.Owes w queryHead floor (⟨.fresh head base goals mark p.clauses.size, u⟩ :: bs) xs) :
    ∃ ys zs, xs = ys ++ zs ∧ Yields w.rules p.symbols queryHead w.rules goals u.heap ys ∧
      p.Owes w queryHead floor bs zs := by
  cases owes with
  | @barren _ _ x zs none read later =>
    obtain rfl : goals = [] := none
    obtain ⟨rfl, rfl⟩ := barren rfl
    exact ⟨[x], zs, rfl, .solved read, later⟩
  | @branch _ _ goal rest keys ys zs list exact tree later =>
    obtain rfl : goals = goal :: rest := list
    rw [rulesLeft_fresh runs uncalled indexed tame exact] at tree
    exact ⟨ys, zs, rfl, tree.of_filter, later⟩

/-- What the branch owed before a rule was used: the answers below that rule, and then
what it still owes. -/
theorem Used.owes {goal : Cell} {rest : List Cell} {keys : Keys} {before ids : List Nat}
    {id : Nat} {c : Clause} {ys : List Term} (runs : p.Runs w) (uncalled : Uncalled w s)
    (clear : p.Clear w s b)
    (used : p.Used queryHead b r left u goal rest keys before id ids c)
    (below : Yields w.rules p.symbols queryHead w.rules
      (c.body.map (·.relocate (c.shift b.store)) ++ rest) u.heap xs)
    (owes : p.Owes w queryHead floor (⟨left, b.store⟩ :: bs) ys) :
    p.Owes w queryHead floor (b :: bs) (xs ++ ys) := by
  obtain ⟨code, fuel, rule, attempted, -, body⟩ := used.attempted runs uncalled clear.tame
  have goals : left.goals = goal :: rest := by
    rw [used.left]
    exact used.goals
  rw [body] at below
  cases owes with
  | barren none _ _ => exact nomatch goals.symm.trans none
  | @branch _ _ goal' rest' keys' xs' ys list exact tree later =>
    obtain ⟨rfl, rfl⟩ := List.cons.inj (goals.symm.trans list)
    obtain rfl : keys = keys' := Except.ok.inj (used.exact.symm.trans exact)
    have whole : p.rulesLeft w b goal keys = code :: p.rulesLeft w ⟨left, b.store⟩ goal keys := by
      rw [rulesLeft, used.live, List.filterMap_cons_some rule, rulesLeft, used.pending_left]
    rw [← List.append_assoc]
    refine .branch used.goals used.exact ?_ later
    rw [whole, used.goals]
    dsimp only at tree
    rw [goals] at tree
    exact .used attempted below tree

theorem Spent.owes (runs : p.Runs w) (atop : p.Over below b) (some : b.point.hasGoals = true)
    (spent : p.Spent queryHead b) (owes : p.Owes w queryHead floor bs xs) :
    p.Owes w queryHead floor (b :: bs) xs := by
  have clauses : 0 < p.clauses.size := by
    rw [runs.size]
    omega
  obtain ⟨goal, rest, keys, goals, exact, none⟩ := spent.live runs.placed clauses atop some
  have nothing : Yields w.rules p.symbols queryHead (p.rulesLeft w b goal keys) b.point.goals
      b.store.heap [] := by
    rw [rulesLeft, none, goals]
    exact .spent
  rw [← List.nil_append xs]
  exact .branch goals exact nothing owes

/-- A search pays the first term its stack owes. -/
theorem Explored.owes (runs : p.Runs w) (uncalled : Uncalled w s) (indexed : p.Indexed)
    (clear : ∀ b ∈ bs, p.Clear w s b) (e : p.Explored queryHead floor bs o bs')
    (told : p.Told o t) (owes : p.Owes w queryHead floor bs' xs) :
    p.Owes w queryHead floor bs (t.toList ++ xs) := by
  have placed := runs.placed
  induction e with
  | finished =>
    obtain rfl : t = none := told
    exact owes
  | barren none =>
    obtain ⟨x, read, rfl⟩ := told
    exact .barren (by simpa [ChoicePoint.hasGoals] using none) read owes
  | @dropped b bs bs' o some spent _ ih =>
    obtain ⟨here, others⟩ := List.forall_mem_cons.mp clear
    obtain ⟨below, atop⟩ := here.atop
    exact spent.owes runs atop some (ih others told owes)
  | @descended b bs bs' o next left u some _ turn _ ih =>
    obtain ⟨here, others⟩ := List.forall_mem_cons.mp clear
    obtain ⟨below, atop⟩ := here.atop
    obtain ⟨kept, advanced⟩ := here.turn runs uncalled some turn
    have owed := ih (List.forall_mem_cons.mpr
      ⟨advanced next rfl, List.forall_mem_cons.mpr ⟨kept, others⟩⟩) told owes
    obtain ⟨goal, rest, keys, before, id, ids, c, used⟩ := turn.used placed atop some (by simp)
    obtain ⟨more, rfl⟩ := resolution_eq_advanced.mp used.result.symm
    obtain ⟨ys, zs, split, tree, later⟩ := Owes.fresh runs uncalled indexed
      (advanced _ rfl).tame (fun none => absurd none more) owed
    rw [split]
    exact used.owes runs uncalled here tree later
  | @answered b bs a left u some _ turn =>
    have here := clear b (List.mem_cons_self ..)
    obtain ⟨below, atop⟩ := here.atop
    obtain ⟨x, read, rfl⟩ := told
    obtain rfl := turn.answer placed atop some
    obtain ⟨goal, rest, keys, before, id, ids, c, used⟩ := turn.used placed atop some (by simp)
    have none := (resolution_eq_answered.mp used.result.symm).1
    refine used.owes runs uncalled here ?_ owes
    rw [none]
    exact .solved read

theorem Asked.reduceOption_nil (e : p.Asked queryHead floor [] ts bs') :
    ts.reduceOption = [] := by
  generalize stack : ([] : List Branch) = bs at e
  induction e with
  | nil => rfl
  | cons explored told _ ih =>
    subst stack
    cases explored
    obtain rfl := told
    rw [List.reduceOption_cons_of_none]
    exact ih rfl

/-- A machine that has come to an end has paid all it owed. -/
theorem Asked.owes (runs : p.Runs w) (uncalled : Uncalled w s) (indexed : p.Indexed)
    (clear : ∀ b ∈ bs, p.Clear w s b) (e : p.Asked queryHead floor bs ts bs')
    (ended : none ∈ ts) : p.Owes w queryHead floor bs ts.reduceOption := by
  induction e with
  | nil => cases ended
  | @cons bs mid bs' o t ts explored told later ih =>
    have step {xs : List Term} (owes : p.Owes w queryHead floor mid xs) :=
      explored.owes runs uncalled indexed clear told owes
    cases t with
    | some x =>
      have ended : none ∈ ts := by simpa using ended
      exact step (ih (explored.forall_branches (fun clear some e => clear.turn runs uncalled some e)
        clear) ended)
    | none =>
      obtain rfl : o = none := by
        cases o with
        | none => rfl
        | some found =>
          obtain ⟨x, -, same⟩ := told
          cases same
      obtain rfl := explored.nothing_left rfl
      rw [List.reduceOption_cons_of_none, later.reduceOption_nil]
      exact step .nil

end Program

end HornMachine
