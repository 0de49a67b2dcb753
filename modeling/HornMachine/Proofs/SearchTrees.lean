import HornMachine.Proofs.Renumbering
import HornMachine.Proofs.Sparing

/-!
# The tree of a search

What a search answers is said without a stack: below a list of goals lie, for each
rule that unifies with the first of them, the answers below the goals that result.
Whether a rule unifies and what heap it leaves does not depend on the rules before
it. So trying the rules in another order permutes the answers, and so does numbering
the symbols otherwise: the copies still lie at the same addresses.
-/
namespace HornMachine

/-- The terms answered below a list of goals, when `alts` are the rules still to be
tried on the first of them. -/
inductive Yields (rules : List ClauseCode) (t : Symbols) (queryHead : Cell) :
    List ClauseCode → List Cell → Heap → List Term → Prop
  | solved {alts : List ClauseCode} {h : Heap} {x : Term} :
      h.readout t queryHead = .ok x → Yields rules t queryHead alts [] h [x]
  | spent {goal : Cell} {rest : List Cell} {h : Heap} :
      Yields rules t queryHead [] (goal :: rest) h []
  | skipped {code : ClauseCode} {alts : List ClauseCode} {goal : Cell} {rest : List Cell}
      {h : Heap} {xs : List Term} : (∀ fuel k, code.attempt fuel goal h ≠ .ok (true, k)) →
      Yields rules t queryHead alts (goal :: rest) h xs →
      Yields rules t queryHead (code :: alts) (goal :: rest) h xs
  | used {code : ClauseCode} {alts : List ClauseCode} {goal : Cell} {rest : List Cell}
      {h k : Heap} {fuel : Nat} {xs ys : List Term} :
      code.attempt fuel goal h = .ok (true, k) →
      Yields rules t queryHead rules (code.body.map (·.relocate h.top) ++ rest) k xs →
      Yields rules t queryHead alts (goal :: rest) h ys →
      Yields rules t queryHead (code :: alts) (goal :: rest) h (xs ++ ys)

variable {rules rules' alts alts' before after : List ClauseCode} {t t' : Symbols}
  {queryHead goal : Cell} {goals rest : List Cell} {h k : Heap} {xs ys : List Term}
  {code : ClauseCode} {fuel fuel' : Nat}

theorem ClauseCode.attempt_unique {unified unified' : Bool} {k' : Heap}
    (e : code.attempt fuel goal h = .ok (unified, k))
    (e' : code.attempt fuel' goal h = .ok (unified', k')) : unified = unified' ∧ k = k' := by
  obtain ⟨full, s, whole, unify, rfl⟩ := attempt_eq_ok.mp e
  obtain ⟨full', s', whole', unify', rfl⟩ := attempt_eq_ok.mp e'
  obtain rfl : full = full' := Heap.eq_of_toList (whole.trans whole'.symm)
  obtain ⟨rfl, rfl⟩ := Prod.mk.inj (Store.unify_unique unify unify')
  exact ⟨rfl, rfl⟩

/-! ### The order of the rules -/

/-- A rule that does not unify may be put anywhere. -/
theorem Yields.insert_skipped (clash : ∀ fuel k, code.attempt fuel goal h ≠ .ok (true, k))
    (e : Yields rules t queryHead (before ++ after) (goal :: rest) h ys) :
    Yields rules t queryHead (before ++ code :: after) (goal :: rest) h ys := by
  induction before generalizing ys with
  | nil => exact .skipped clash e
  | cons other before ih =>
    cases e with
    | skipped clash' later => exact .skipped clash' (ih later)
    | used attempted below later => exact .used attempted below (ih later)

/-- Wherever a rule is put that does, the same answers come in. -/
theorem Yields.insert_used
    (below : Yields rules t queryHead rules (code.body.map (·.relocate h.top) ++ rest) k xs)
    (attempted : code.attempt fuel goal h = .ok (true, k))
    (e : Yields rules t queryHead (before ++ after) (goal :: rest) h ys) :
    ∃ zs, Yields rules t queryHead (before ++ code :: after) (goal :: rest) h zs ∧
      zs.Perm (xs ++ ys) := by
  induction before generalizing ys with
  | nil => exact ⟨xs ++ ys, .used attempted below e, .refl _⟩
  | cons other before ih =>
    cases e with
    | skipped clash later =>
      obtain ⟨zs, tree, perm⟩ := ih later
      exact ⟨zs, .skipped clash tree, perm⟩
    | @used _ _ _ _ _ _ _ firsts ys attempted' below' later =>
      obtain ⟨zs, tree, perm⟩ := ih later
      refine ⟨firsts ++ zs, .used attempted' below' tree, ?_⟩
      exact (perm.append_left firsts).trans (List.perm_append_comm_assoc ..)

/-- With the rules in another order the same is answered, in another order. -/
theorem Yields.perm (e : Yields rules t queryHead alts goals h xs) (order : rules.Perm rules')
    (left : alts.Perm alts') :
    ∃ ys, Yields rules' t queryHead alts' goals h ys ∧ ys.Perm xs := by
  induction e generalizing alts' with
  | solved read => exact ⟨_, .solved read, .refl _⟩
  | spent =>
    obtain rfl := left.symm.eq_nil
    exact ⟨[], .spent, .refl _⟩
  | @skipped code alts goal rest h xs clash _ ih =>
    obtain ⟨before, after, rfl⟩ := List.append_of_mem (left.mem_iff.mp (List.mem_cons_self ..))
    obtain ⟨ys, tree, perm⟩ := ih (left.trans List.perm_middle).cons_inv
    exact ⟨ys, tree.insert_skipped clash, perm⟩
  | @used code alts goal rest h k fuel xs ys attempted _ _ ihBelow ih =>
    obtain ⟨before, after, rfl⟩ := List.append_of_mem (left.mem_iff.mp (List.mem_cons_self ..))
    obtain ⟨xs', below, permBelow⟩ := ihBelow order
    obtain ⟨ys', later, permLater⟩ := ih (left.trans List.perm_middle).cons_inv
    obtain ⟨zs, tree, perm⟩ := below.insert_used attempted later
    exact ⟨zs, tree, perm.trans (permBelow.append permLater)⟩

/-- A tree has only one list of answers. -/
theorem Yields.unique (e : Yields rules t queryHead alts goals h xs)
    (e' : Yields rules t queryHead alts goals h ys) : xs = ys := by
  induction e generalizing ys with
  | solved read =>
    cases e' with
    | solved read' => rw [Except.ok.inj (read.symm.trans read')]
  | spent =>
    cases e' with
    | spent => rfl
  | skipped clash _ ih =>
    cases e' with
    | skipped _ later => exact ih later
    | used attempted _ _ => exact absurd attempted (clash _ _)
  | used attempted _ _ ihBelow ih =>
    cases e' with
    | skipped clash _ => exact absurd attempted (clash _ _)
    | used attempted' below later =>
      obtain ⟨-, rfl⟩ := ClauseCode.attempt_unique attempted attempted'
      rw [ihBelow below, ih later]

open Classical in
/-- Rules that do not unify may be left out. -/
theorem Yields.of_filter (e : Yields rules t queryHead
      (alts.filter fun code => ∃ fuel k, code.attempt fuel goal h = .ok (true, k))
      (goal :: rest) h xs) :
    Yields rules t queryHead alts (goal :: rest) h xs := by
  induction alts generalizing xs with
  | nil => exact e
  | cons code alts ih =>
    by_cases unifies : ∃ fuel k, code.attempt fuel goal h = .ok (true, k)
    · rw [List.filter_cons_of_pos (by simpa using unifies)] at e
      cases e with
      | skipped clash later => exact .skipped clash (ih later)
      | used attempted below later => exact .used attempted below (ih later)
    · rw [List.filter_cons_of_neg (by simpa using unifies)] at e
      exact .skipped (fun fuel k attempted => unifies ⟨fuel, k, attempted⟩) (ih e)

/-! ### The numbers of the symbols -/

/-- The codes of two programs over the same names, none of which calls its query. -/
structure Codes.Twins (w w' : Codes) (t t' : Symbols) (s s' : Nat) : Prop where
  sound : t.Sound
  sound' : t'.Sound
  uncalled : Uncalled w s
  uncalled' : Uncalled w' s'
  usable : ∀ code ∈ w.rules, code.Usable w.count
  usable' : ∀ code ∈ w'.rules, code.Usable w'.count
  floor : w'.floor = w.floor

/-- Rules of the two programs that correspond. -/
structure Codes.Paired (w w' : Codes) (t t' : Symbols) (code code' : ClauseCode) : Prop where
  rule : code ∈ w.rules
  rule' : code' ∈ w'.rules
  same : code.Renamed t t' code'

theorem ClauseCode.Renamed.symm {code' : ClauseCode} (same : code.Renamed t t' code') :
    code'.Renamed t' t code where
  cells := same.cells.flip.imp fun _ _ cell => cell.symm
  goals := same.goals.symm

theorem Heap.Renamed.symm {lo : Nat} (renamed : h.Renamed t t' lo k) :
    k.Renamed t' t lo h where
  top := renamed.top.symm
  cell a c d low found found' := (renamed.cell a d c low found' found).symm

variable {w w' : Codes} {s s' : Nat}

/-- Where one rule unifies with a goal, so does the other, and the heaps and the goals
that result correspond. -/
theorem Codes.Paired.attempt {code' : ClauseCode} {h' : Heap} (twins : w.Twins w' t t' s s')
    (paired : w.Paired w' t t' code code') (tame : Tame w s h (goal :: rest))
    (renamed : h.Renamed t t' w.floor k) (e : code.attempt fuel goal h = .ok (true, h')) :
    ∃ k', code'.attempt fuel goal k = .ok (true, k') ∧ h'.Renamed t t' w.floor k' ∧
      code'.body.map (·.relocate k.top) = code.body.map (·.relocate h.top) := by
  obtain ⟨k', attempted, later⟩ := paired.same.attempt twins.sound twins.sound' renamed tame.safe
    (twins.usable code paired.rule) tame.head.term tame.head.tag e
  refine ⟨k', attempted, later, ?_⟩
  rw [ClauseCode.body, ClauseCode.body, paired.same.goals, renamed.top]

/-- Twins answer the same from corresponding heaps. -/
theorem Yields.renamed (twins : w.Twins w' t t' s s')
    (same : List.Forall₂ (w.Paired w' t t') rules rules')
    (left : List.Forall₂ (w.Paired w' t t') alts alts') (tame : Tame w s h goals)
    (tame' : Tame w' s' k goals) (head : h.IsTerm w.floor w.count queryHead)
    (tag : queryHead.tag = .structRef) (renamed : h.Renamed t t' w.floor k)
    (e : Yields rules t queryHead alts goals h xs) :
    Yields rules' t' queryHead alts' goals k xs := by
  induction e generalizing alts' k with
  | solved read =>
    exact .solved (renamed.readout tame.safe.closed head
      (.same (by rw [tag]; decide)) read)
  | spent =>
    cases left
    exact .spent
  | @skipped code alts goal rest h xs clash _ ih =>
    obtain _ | ⟨paired, left⟩ := left
    refine .skipped (fun fuel k' attempted => ?_) (ih left tame tame' head renamed)
    have back := renamed.symm
    rw [← twins.floor] at back
    obtain ⟨h', attempted', -⟩ := paired.same.symm.attempt twins.sound' twins.sound back
      tame'.safe (twins.usable' _ paired.rule') tame'.head.term tame'.head.tag attempted
    exact clash fuel h' attempted'
  | @used code alts goal rest h h' fuel xs ys attempted _ _ ihBelow ih =>
    obtain _ | ⟨paired, left⟩ := left
    obtain ⟨k', attempted', later, bodies⟩ := paired.attempt twins tame renamed attempted
    have usable := twins.usable code paired.rule
    have usable' := twins.usable' _ paired.rule'
    obtain ⟨-, full, whole, keeps, -⟩ := tame.safe.attempted usable tame.head.term attempted
    have below :=
      tame.attempted twins.uncalled usable (List.mem_append_left _ paired.rule) attempted
    have below' := tame'.attempted twins.uncalled' usable' (List.mem_append_left _ paired.rule')
      attempted'
    rw [bodies] at below'
    refine .used attempted' ?_ (ih left tame tame' head renamed)
    rw [bodies]
    exact ihBelow same below below' ((head.mono (.append whole)).mono keeps) later

end HornMachine
