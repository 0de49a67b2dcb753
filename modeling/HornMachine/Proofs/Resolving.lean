import HornMachine.Machine.Search
import HornMachine.Proofs.UnificationTurn

/-!
# Resolving one goal

`Clause.Resolves` says what a successful attempt with a clause does to the store,
and `Clause.Fails` that the head clashes with the goal. Which resolution an
attempt yields depends on the store before it and on the clause alone. A failed
attempt leaves no trace: the store it ends with is the one it started with.

The candidates of a choice point are read as the list of those still pending.
Trying them in turn is a scan of that list, and the choice point left behind has
the rest of the list pending.
-/
namespace HornMachine

namespace Clause

/-- The distance from the template of a clause to a copy at the top of a store. -/
def shift (c : Clause) (t : Store) : Nat := t.heap.top - c.base

/-- A copy of the head alone, on top of a store. -/
def CopiedHead (c : Clause) (t : Store) (copied : Heap) : Prop :=
  copied.toList = t.heap.toList ++ (t.heap.span c.base c.headLen).map (·.relocate (c.shift t))

/-- A copy of the rest of the clause behind the head that was copied in `t`. -/
def CopiedBody (c : Clause) (t : Store) (h full : Heap) : Prop :=
  full.toList = h.toList ++
    (h.span (c.base + c.headLen) (c.len - c.headLen)).map (·.relocate (c.shift t))

/-- The head unifies with the goal, and the copy of the clause is complete. -/
def Resolves (c : Clause) (fuel : Nat) (goal : Cell) (t u : Store) : Prop :=
  ∃ copied s, c.CopiedHead t copied ∧
    Store.unify ⟨copied, t.trail⟩ fuel t.heap.top goal (c.head.relocate (c.shift t)) =
      .ok (true, s) ∧
    c.CopiedBody t s.heap u.heap ∧ u.trail = s.trail

/-- The head clashes with the goal. -/
def Fails (c : Clause) (fuel : Nat) (goal : Cell) (t : Store) : Prop :=
  ∃ copied s, c.CopiedHead t copied ∧
    Store.unify ⟨copied, t.trail⟩ fuel t.heap.top goal (c.head.relocate (c.shift t)) =
      .ok (false, s)

/-- The template lies below `top`. -/
structure Placed (c : Clause) (top : Nat) : Prop where
  inside : c.base + c.len ≤ top
  head : c.headLen ≤ c.len

theorem Placed.mono {c : Clause} {n m : Nat} (p : c.Placed n) (le : n ≤ m) : c.Placed m :=
  ⟨p.inside.trans le, p.head⟩

theorem Resolves.mono {c : Clause} {fuel more : Nat} {goal : Cell} {t u : Store}
    (le : fuel ≤ more) (e : c.Resolves fuel goal t u) : c.Resolves more goal t u := by
  obtain ⟨copied, s, head, unified, body⟩ := e
  exact ⟨copied, s, head, Store.unify_mono le unified, body⟩

theorem Fails.mono {c : Clause} {fuel more : Nat} {goal : Cell} {t : Store}
    (le : fuel ≤ more) (e : c.Fails fuel goal t) : c.Fails more goal t := by
  obtain ⟨copied, s, head, unified⟩ := e
  exact ⟨copied, s, head, Store.unify_mono le unified⟩

theorem unify_unique {c : Clause} {fuel more : Nat} {goal : Cell} {t : Store}
    {h k : Heap} {r q : Bool × Store} (first : c.CopiedHead t h) (second : c.CopiedHead t k)
    (e : Store.unify ⟨h, t.trail⟩ fuel t.heap.top goal (c.head.relocate (c.shift t)) = .ok r)
    (f : Store.unify ⟨k, t.trail⟩ more t.heap.top goal (c.head.relocate (c.shift t)) = .ok q) :
    r = q := by
  have same : h = k := Heap.eq_of_toList (first.trans second.symm)
  subst same
  exact Store.unify_unique e f

theorem Resolves.unique {c : Clause} {fuel more : Nat} {goal : Cell} {t u w : Store}
    (e : c.Resolves fuel goal t u) (f : c.Resolves more goal t w) : u = w := by
  obtain ⟨copied, s, head, unified, body, trail⟩ := e
  obtain ⟨copied', s', head', unified', body', trail'⟩ := f
  have same := unify_unique head head' unified unified'
  cases same
  obtain ⟨h, log⟩ := u
  obtain ⟨k, log'⟩ := w
  have heaps : h = k := Heap.eq_of_toList (body.trans body'.symm)
  simp only at trail trail'
  rw [heaps, trail, trail']

theorem Fails.not_resolves {c : Clause} {fuel more : Nat} {goal : Cell} {t u : Store}
    (e : c.Fails fuel goal t) : ¬ c.Resolves more goal t u := by
  rintro ⟨copied, s, head, unified, -⟩
  obtain ⟨copied', s', head', clash⟩ := e
  have same := unify_unique head head' unified clash
  cases same

theorem CopiedHead.top {c : Clause} {t : Store} {copied : Heap} (e : c.CopiedHead t copied)
    (placed : c.Placed t.heap.top) : copied.top = t.heap.top + c.headLen := by
  have := placed.inside
  have := placed.head
  rw [Heap.top_append e, List.length_map, Heap.length_span (by omega)]

theorem copyHead_eq_ok {c : Clause} {t : Store} {p : Cell × Heap}
    (placed : c.Placed t.heap.top) :
    c.copyHead t.heap (c.shift t) = .ok p ↔
      p.1 = c.head.relocate (c.shift t) ∧ c.CopiedHead t p.2 := by
  have := placed.inside
  have := placed.head
  obtain ⟨head, h⟩ := p
  simp only [copyHead, Halt.bind_eq_ok, Halt.pure_eq_ok, Prod.mk.injEq,
    Heap.copyRelocated_eq_ok (show c.base + c.headLen ≤ t.heap.top by omega)]
  constructor
  · rintro ⟨k, copied, rfl, rfl⟩
    exact ⟨rfl, copied⟩
  · rintro ⟨rfl, copied⟩
    exact ⟨h, copied, rfl, rfl⟩

theorem copyBody_eq_ok {c : Clause} {t : Store} {h : Heap} {p : List Cell × Heap}
    (placed : c.Placed h.top) :
    c.copyBody h (c.shift t) = .ok p ↔
      p.1 = c.body.map (·.relocate (c.shift t)) ∧ c.CopiedBody t h p.2 := by
  have := placed.inside
  have := placed.head
  obtain ⟨goals, k⟩ := p
  simp only [copyBody, Halt.bind_eq_ok, Halt.pure_eq_ok, Prod.mk.injEq,
    Heap.copyRelocated_eq_ok (show c.base + c.headLen + (c.len - c.headLen) ≤ h.top by omega)]
  constructor
  · rintro ⟨k, copied, rfl, rfl⟩
    exact ⟨rfl, copied⟩
  · rintro ⟨rfl, copied⟩
    exact ⟨k, copied, rfl, rfl⟩

/-- What unification of the copied head leaves can be rewound to the store before
the copy. -/
theorem unify_extends {c : Clause} {t s : Store} {copied : Heap} {fuel : Nat} {goal : Cell}
    {unified : Bool} (placed : c.Placed t.heap.top) (rooted : t.heap.Rooted)
    (head : c.CopiedHead t copied)
    (e : Store.unify ⟨copied, t.trail⟩ fuel t.heap.top goal (c.head.relocate (c.shift t)) =
      .ok (unified, s)) :
    t.Extends s ∧ s.heap.Rooted ∧ s.heap.top = t.heap.top + c.headLen := by
  have := placed.inside
  have := placed.head
  have start : t.Extends ⟨copied, t.trail⟩ := (Store.Extends.refl t).append head
  have root : copied.Rooted := rooted.copy (by omega) head
  obtain ⟨extends', root', size⟩ := start.unifyAll root (Nat.le_succ _) e
  exact ⟨extends', root', size.trans (head.top placed)⟩

theorem Resolves.extends {c : Clause} {t u : Store} {fuel : Nat} {goal : Cell}
    (placed : c.Placed t.heap.top) (rooted : t.heap.Rooted) (e : c.Resolves fuel goal t u) :
    t.Extends u ∧ u.heap.Rooted := by
  have := placed.inside
  have := placed.head
  obtain ⟨copied, s, head, unified, body, trail⟩ := e
  obtain ⟨before, root, size⟩ := unify_extends placed rooted head unified
  obtain ⟨h, log⟩ := u
  simp only at body trail
  subst trail
  have inside : c.base + c.headLen + (c.len - c.headLen) ≤ s.heap.top := by omega
  refine ⟨before.append body, root.copy inside ?_⟩
  have same : s.heap.top - (c.base + c.headLen) = c.shift t := by
    unfold shift
    omega
  rw [same]
  exact body

end Clause

namespace Program

/-- What a successful attempt in the store `t` comes to. -/
def resolution (p : Program) (queryHead : Cell) (rest : List Cell) (c : Clause) (t : Store) :
    Resolution :=
  let body := c.body.map (·.relocate (c.shift t))
  if body.isEmpty && rest.isEmpty then .answered ⟨queryHead, t.trail.mark, t.heap.top⟩
  else .advanced (.fresh (c.head.relocate (c.shift t)) t.heap.top (body ++ rest) t.trail.mark
    p.clauses.size)

theorem resolution_ne_exhausted (p : Program) (queryHead : Cell) (rest : List Cell) (c : Clause)
    (t : Store) : p.resolution queryHead rest c t ≠ .exhausted := by
  dsimp only [resolution]
  split <;> exact nofun

variable {p : Program} {fuel : Nat} {queryHead goal : Cell} {rest : List Cell} {c : Clause}
  {t u : Store}

theorem resolution_eq_advanced {next : ChoicePoint} :
    p.resolution queryHead rest c t = .advanced next ↔
      c.body.map (·.relocate (c.shift t)) ++ rest ≠ [] ∧
        next = .fresh (c.head.relocate (c.shift t)) t.heap.top
          (c.body.map (·.relocate (c.shift t)) ++ rest) t.trail.mark p.clauses.size := by
  unfold resolution
  dsimp only
  split
  · next none => simp_all
  · next some =>
    rw [Resolution.advanced.injEq]
    constructor
    · intro same
      exact ⟨fun none => some (by simpa using none), same.symm⟩
    · intro ⟨_, same⟩
      exact same.symm

theorem resolution_eq_answered {a : Answer} :
    p.resolution queryHead rest c t = .answered a ↔
      c.body.map (·.relocate (c.shift t)) ++ rest = [] ∧
        a = ⟨queryHead, t.trail.mark, t.heap.top⟩ := by
  unfold resolution
  dsimp only
  split
  · next none =>
    rw [Resolution.answered.injEq]
    constructor
    · intro same
      exact ⟨by simpa using none, same.symm⟩
    · intro ⟨_, same⟩
      exact same.symm
  · next some => simp_all

theorem resolveWith_eq_some {r : Resolution} (placed : c.Placed t.heap.top)
    (rooted : t.heap.Rooted) :
    p.resolveWith fuel queryHead goal rest c t = .ok (some r, u) ↔
      r = p.resolution queryHead rest c t ∧ c.Resolves fuel goal t u := by
  obtain ⟨heap, trail⟩ := t
  obtain ⟨h, log⟩ := u
  simp only [resolveWith, Halt.bind_eq_ok]
  constructor
  · rintro ⟨⟨head, copied⟩, copy, ⟨unified, s, log'⟩, unify, e⟩
    obtain ⟨rfl, head⟩ := (Clause.copyHead_eq_ok (t := ⟨heap, trail⟩) placed).mp copy
    have top := (Clause.unify_extends (t := ⟨heap, trail⟩) placed rooted head unify).2.2
    cases unified with
    | false =>
      obtain ⟨w, -, e⟩ := Halt.bind_eq_ok.mp e
      cases e
    | true =>
      obtain ⟨⟨body, full⟩, copy, e⟩ := Halt.bind_eq_ok.mp e
      obtain ⟨rfl, body⟩ := (Clause.copyBody_eq_ok (t := ⟨heap, trail⟩)
        (placed.mono (by dsimp only at top ⊢; omega))).mp copy
      dsimp only at e
      split at e <;> rename_i ends <;> cases e
      · exact ⟨by rw [resolution, if_pos ends], copied, _, head, unify, body, rfl⟩
      · exact ⟨by rw [resolution, if_neg ends], copied, _, head, unify, body, rfl⟩
  · rintro ⟨rfl, copied, ⟨s, log'⟩, head, unify, body, rfl⟩
    have top := (Clause.unify_extends (t := ⟨heap, trail⟩) placed rooted head unify).2.2
    refine ⟨(c.head.relocate (c.shift ⟨heap, trail⟩), copied),
      (Clause.copyHead_eq_ok (t := ⟨heap, trail⟩) placed).mpr ⟨rfl, head⟩, _, unify, ?_⟩
    simp only [↓reduceIte, Halt.bind_eq_ok]
    refine ⟨(c.body.map (·.relocate (c.shift ⟨heap, trail⟩)), h),
      (Clause.copyBody_eq_ok (t := ⟨heap, trail⟩)
        (placed.mono (by dsimp only at top ⊢; omega))).mpr ⟨rfl, body⟩, ?_⟩
    simp only [resolution]
    split <;> rfl

theorem resolveWith_eq_none (placed : c.Placed t.heap.top) (rooted : t.heap.Rooted) :
    p.resolveWith fuel queryHead goal rest c t = .ok (none, u) ↔
      u = t ∧ c.Fails fuel goal t := by
  obtain ⟨heap, trail⟩ := t
  simp only [resolveWith, Halt.bind_eq_ok]
  constructor
  · rintro ⟨⟨head, copied⟩, copy, ⟨unified, s, log'⟩, unify, e⟩
    obtain ⟨rfl, head⟩ := (Clause.copyHead_eq_ok (t := ⟨heap, trail⟩) placed).mp copy
    cases unified with
    | true =>
      obtain ⟨w, -, e⟩ := Halt.bind_eq_ok.mp e
      dsimp only at e
      split at e <;> cases e
    | false =>
      obtain ⟨w, restored, e⟩ := Halt.bind_eq_ok.mp e
      cases e
      have back := (Clause.unify_extends (t := ⟨heap, trail⟩) placed rooted head unify).1.restore
      rw [back, Except.ok.injEq] at restored
      exact ⟨restored.symm, copied, _, head, unify⟩
  · rintro ⟨rfl, copied, ⟨s, log'⟩, head, unify⟩
    have back := (Clause.unify_extends (t := ⟨heap, trail⟩) placed rooted head unify).1.restore
    refine ⟨(c.head.relocate (c.shift ⟨heap, trail⟩), copied),
      (Clause.copyHead_eq_ok (t := ⟨heap, trail⟩) placed).mpr ⟨rfl, head⟩, _, unify, ?_⟩
    simp only [Bool.false_eq_true, ↓reduceIte, Halt.bind_eq_ok]
    exact ⟨_, back, rfl⟩

end Program

end HornMachine
