import HornMachine.Proofs.Readouts
import HornMachine.Proofs.TermReading
import HornMachine.Proofs.Uncalled
import HornMachine.Proofs.WholeCopies

/-!
# The numbers of symbols do not matter

Two tables may number the same names differently. Cells correspond when they are the
same, or constants with one name in both tables, and heaps when their cells do from
some address on. Inside a closed region everything that is computed corresponds
again: chains end at corresponding cells, unification binds the same variables,
copies correspond, and the terms that are read out are equal.
-/
namespace HornMachine

/-- The same cell, or the numbers of one name in the two tables. -/
inductive Cell.Renamed (t t' : Symbols) : Cell → Cell → Prop
  | same {c : Cell} : c.tag ≠ .constant → Renamed t t' c c
  | symbol {s s' : Nat} {name : String} : t.resolve s = some name → t'.resolve s' = some name →
      Renamed t t' (.constant s) (.constant s')

/-- Heaps whose cells correspond from `lo` on. -/
structure Heap.Renamed (t t' : Symbols) (lo : Nat) (h k : Heap) : Prop where
  top : k.top = h.top
  cell : ∀ a c d, lo ≤ a → h.get? a = some c → k.get? a = some d → c.Renamed t t' d

/-- The same block of cells, with the same goals. -/
structure ClauseCode.Renamed (t t' : Symbols) (code code' : ClauseCode) : Prop where
  cells : List.Forall₂ (Cell.Renamed t t') code.cells.toList code'.cells.toList
  goals : code'.goals = code.goals

variable {t t' : Symbols}

namespace Cell.Renamed

variable {c c' d d' : Cell}

theorem tag (e : c.Renamed t t' d) : d.tag = c.tag := by
  cases e with
  | same _ => rfl
  | symbol _ _ => rw [tag_constant, tag_constant]

theorem isVar (e : c.Renamed t t' d) : d.isVar = c.isVar := by
  rw [Bool.eq_iff_iff, isVar_iff, isVar_iff, e.tag]

theorem eq (e : c.Renamed t t' d) (other : c.tag ≠ .constant) : d = c := by
  cases e with
  | same _ => rfl
  | symbol _ _ => exact absurd (tag_constant _) other

theorem eq_of_isVar (e : c.Renamed t t' d) (isVar : c.isVar = true) : d = c := by
  apply e.eq
  rcases isVar_iff.mp isVar with tag | tag <;> rw [tag] <;> decide

theorem symm (e : c.Renamed t t' d) : d.Renamed t' t c := by
  cases e with
  | same other => exact .same other
  | symbol known known' => exact .symbol known' known

theorem unique (sound' : t'.Sound) (e : c.Renamed t t' d)
    (e' : c.Renamed t t' d') : d = d' := by
  cases e with
  | same other => exact (e'.eq other).symm
  | @symbol s r name known known' =>
    generalize same : Cell.constant s = c at e'
    cases e' with
    | same other => exact absurd (same ▸ tag_constant s) other
    | symbol known₂ known₂' =>
      have ids := make_inj (Symbols.id_lt known) (Symbols.id_lt known₂) same
      rw [← ids, known, Option.some.injEq] at known₂
      rw [Symbols.resolve_inj sound'.distinct known' (known₂ ▸ known₂')]

theorem eq_iff (sound : t.Sound) (sound' : t'.Sound) (e : c.Renamed t t' d)
    (e' : c'.Renamed t t' d') : c = c' ↔ d = d' := by
  constructor
  · rintro rfl
    exact e.unique sound' e'
  · rintro rfl
    exact e.symm.unique sound e'.symm

theorem relocate (e : c.Renamed t t' d) (base : Nat) :
    (c.relocate base).Renamed t t' (d.relocate base) := by
  cases e with
  | same other => exact .same (by rwa [tag_relocate])
  | symbol known known' =>
    rw [relocate_of_tag (.inl (tag_constant _)), relocate_of_tag (.inl (tag_constant _))]
    exact .symbol known known'

end Cell.Renamed

namespace Heap.Renamed

variable {lo count a b : Nat} {h h' k k' : Heap} {c d x : Cell}

theorem get? (renamed : h.Renamed t t' lo k) (low : lo ≤ a) (found : h.get? a = some c) :
    ∃ d, k.get? a = some d ∧ c.Renamed t t' d := by
  obtain ⟨d, found'⟩ := exists_get? (h := k) (renamed.top.symm ▸ lt_top_of_get? found)
  exact ⟨d, found', renamed.cell a c d low found found'⟩

theorem append {cs ds : List Cell} (renamed : h.Renamed t t' lo k)
    (e : h'.toList = h.toList ++ cs) (e' : k'.toList = k.toList ++ ds)
    (cells : List.Forall₂ (Cell.Renamed t t') cs ds) : h'.Renamed t t' lo k' where
  top := by rw [top_append e, top_append e', renamed.top, cells.length_eq]
  cell a c d low found found' := by
    rw [get?_append e] at found
    rw [get?_append e', renamed.top] at found'
    split at found
    · next below =>
      rw [if_pos below] at found'
      exact renamed.cell a c d low found found'
    · next above =>
      rw [if_neg above] at found'
      obtain ⟨inside, rfl⟩ := List.getElem?_eq_some_iff.mp found
      obtain ⟨inside', rfl⟩ := List.getElem?_eq_some_iff.mp found'
      exact List.forall₂_iff_get.mp cells |>.2 _ inside inside'

theorem write (renamed : h.Renamed t t' lo k) (cell : c.Renamed t t' d)
    (written : h.write a c = .ok h') : ∃ k', k.write a d = .ok k' ∧ h'.Renamed t t' lo k' := by
  obtain ⟨k', written'⟩ := exists_write (renamed.top.symm ▸ (write_eq_ok.mp written).1) d
  refine ⟨k', written', by rw [top_write written', top_write written, renamed.top], ?_⟩
  intro b e f low found found'
  rw [get?_write written] at found
  rw [get?_write written'] at found'
  split at found
  · next here =>
    rw [if_pos here] at found'
    cases found
    cases found'
    exact cell
  · next other =>
    rw [if_neg other] at found'
    exact renamed.cell b e f low found found'

theorem leads (renamed : h.Renamed t t' lo k) (closed : h.Closed lo count)
    (term : h.IsTerm lo count c) (cell : c.Renamed t t' d) (ended : h.Leads c x) :
    ∃ y, k.Leads d y ∧ x.Renamed t t' y := by
  induction ended generalizing d with
  | value notVar => exact ⟨d, .value (by rw [cell.isVar, notVar]), cell⟩
  | root isVar found =>
    obtain rfl := cell.eq_of_isVar isVar
    obtain ⟨next', found', there⟩ := renamed.get? (term.var isVar).1 found
    obtain rfl := there.eq_of_isVar isVar
    exact ⟨_, .root isVar found', cell⟩
  | step isVar found other _ ih =>
    obtain rfl := cell.eq_of_isVar isVar
    obtain ⟨above, e, found₂, element⟩ := term.var isVar
    obtain rfl := Option.some.inj (found.symm.trans found₂)
    obtain ⟨next', found', there⟩ := renamed.get? above found
    obtain ⟨y, rest, final⟩ := ih (closed _ _ above found element).1 there
    refine ⟨y, .step isVar found' ?_ rest, final⟩
    rintro rfl
    exact other (there.symm.eq_of_isVar isVar)

theorem deref (renamed : h.Renamed t t' lo k) (closed : h.Closed lo count)
    (term : h.IsTerm lo count c) (cell : c.Renamed t t' d) (ended : h.deref c = .ok x) :
    ∃ y, k.deref d = .ok y ∧ x.Renamed t t' y := by
  obtain ⟨y, leads, final⟩ := renamed.leads closed term cell (.of_deref ended)
  exact ⟨y, deref_eq_ok.mpr leads, final⟩

end Heap.Renamed

/-! ### Unification -/

/-- Two pairs whose sides correspond. -/
def Cell.PairRenamed (t t' : Symbols) (p q : Cell × Cell) : Prop :=
  p.1.Renamed t t' q.1 ∧ p.2.Renamed t t' q.2

namespace Store

variable {lo count boundary : Nat} {h k start : Heap} {s s' u : Store} {a b a' b' : Cell}
  {work work' queued : List (Cell × Cell)}

theorem pushElements_renamed (sound : t.Sound) (sound' : t'.Sound)
    (renamed : h.Renamed t t' lo k) {m n c : Nat} (lowM : lo ≤ m) (lowN : lo ≤ n)
    (pairs : List.Forall₂ (Cell.PairRenamed t t') work work')
    (pushed : pushElements h m n c work = .ok queued) :
    ∃ queued', pushElements k m n c work' = .ok queued' ∧
      List.Forall₂ (Cell.PairRenamed t t') queued queued' := by
  induction c generalizing work work' with
  | zero =>
    cases pushed
    exact ⟨work', rfl, pairs⟩
  | succ c ih =>
    simp only [pushElements, Halt.bind_eq_ok, Heap.read_eq_ok] at pushed
    obtain ⟨x, atX, y, atY, pushed⟩ := pushed
    obtain ⟨x', atX', first⟩ := renamed.get? (by omega) atX
    obtain ⟨y', atY', second⟩ := renamed.get? (by omega) atY
    rw [pushElements, Heap.read_eq_ok.mpr atX', Heap.read_eq_ok.mpr atY', Halt.ok_bind,
      Halt.ok_bind]
    refine ih ?_ pushed
    by_cases equal : x = y
    · rw [if_pos equal, if_pos ((first.eq_iff sound sound' second).mp equal)]
      exact pairs
    · rw [if_neg equal, if_neg fun same => equal ((first.eq_iff sound sound' second).mpr same)]
      exact .cons ⟨first, second⟩ pairs

theorem pushStructures_renamed (sound : t.Sound) (sound' : t'.Sound)
    (renamed : h.Renamed t t' lo k) {m n c d : Nat} (lowM : lo ≤ m) (lowN : lo ≤ n)
    (blockM : h.HasBlock m c) (blockN : h.HasBlock n d)
    (pairs : List.Forall₂ (Cell.PairRenamed t t') work work')
    {q : Option (List (Cell × Cell))} (pushed : pushStructures h m n work = .ok q) :
    ∃ q', pushStructures k m n work' = .ok q' ∧
      Option.Rel (List.Forall₂ (Cell.PairRenamed t t')) q q' := by
  obtain ⟨_, atM, headerM⟩ := renamed.get? lowM blockM.1
  obtain ⟨_, atN, headerN⟩ := renamed.get? lowN blockN.1
  obtain rfl := headerM.eq (by rw [Cell.tag_header]; decide)
  obtain rfl := headerN.eq (by rw [Cell.tag_header]; decide)
  simp only [pushStructures, Heap.read_eq_ok.mpr blockM.1, Heap.read_eq_ok.mpr blockN.1,
    Heap.read_eq_ok.mpr atM, Heap.read_eq_ok.mpr atN, Halt.ok_bind] at pushed ⊢
  split at pushed
  · next headers =>
    rw [if_pos headers]
    obtain ⟨queued, elements, pushed⟩ := Halt.bind_eq_ok.mp pushed
    cases pushed
    obtain ⟨queued', elements', later⟩ :=
      pushElements_renamed sound sound' renamed lowM lowN pairs elements
    exact ⟨some queued', Halt.bind_eq_ok.mpr ⟨queued', elements', rfl⟩, .some later⟩
  · next headers =>
    cases pushed
    rw [if_neg headers]
    exact ⟨none, rfl, .none⟩

theorem bind_renamed {addr : Nat} {v w : Cell} (renamed : s.heap.Renamed t t' lo s'.heap)
    (cell : v.Renamed t t' w) (bound : s.bind boundary addr v = .ok u) :
    ∃ u', s'.bind boundary addr w = .ok u' ∧ u.heap.Renamed t t' lo u'.heap := by
  obtain ⟨k', written, later⟩ := renamed.write cell (bind_eq_ok.mp bound).1
  exact ⟨⟨k', if addr ≤ boundary then s'.trail.push addr else s'.trail⟩,
    bind_eq_ok.mpr ⟨written, rfl⟩, later⟩

/-- What a turn leaves to be done corresponds. -/
inductive TurnRenamed (t t' : Symbols) (lo : Nat) :
    Option (List (Cell × Cell) × Store) → Option (List (Cell × Cell) × Store) → Prop
  | none : TurnRenamed t t' lo none none
  | some {work work' : List (Cell × Cell)} {s s' : Store} :
      List.Forall₂ (Cell.PairRenamed t t') work work' → s.heap.Renamed t t' lo s'.heap →
      TurnRenamed t t' lo (some (work, s)) (some (work', s'))

theorem unifyTurn_renamed (sound : t.Sound) (sound' : t'.Sound)
    (within : Within lo count start ((a, b) :: work) s)
    (renamed : s.heap.Renamed t t' lo s'.heap) (left : a.Renamed t t' a')
    (right : b.Renamed t t' b') (pairs : List.Forall₂ (Cell.PairRenamed t t') work work')
    {o : Option (List (Cell × Cell) × Store)} (turned : unifyTurn boundary a b work s = .ok o) :
    ∃ o', unifyTurn boundary a' b' work' s' = .ok o' ∧ TurnRenamed t t' lo o o' := by
  obtain ⟨x, y, ax, bY⟩ := leads_of_unifyTurn turned
  obtain ⟨termA, termB⟩ := within.terms (a, b) (List.mem_cons_self ..)
  obtain ⟨x', ax', first⟩ := renamed.leads within.closed termA left ax
  obtain ⟨y', bY', second⟩ := renamed.leads within.closed termB right bY
  have equal_iff : x = y ↔ x' = y' := first.eq_iff sound sound' second
  cases ends_cases x y with
  | same equal =>
    subst equal
    rw [unifyTurn_same ax bY] at turned
    cases turned
    obtain rfl := equal_iff.mp rfl
    exact ⟨_, unifyTurn_same ax' bY', .some pairs renamed⟩
  | @binds v e other sides isVar older =>
    rw [unifyTurn_binds ax bY other sides isVar older] at turned
    obtain ⟨u, bound, turned⟩ := Halt.bind_eq_ok.mp turned
    cases turned
    obtain ⟨e', cell, sides'⟩ : ∃ e', e.Renamed t t' e' ∧
        (v = x' ∧ e' = y' ∨ v = y' ∧ e' = x') := by
      rcases sides with ⟨rfl, rfl⟩ | ⟨rfl, rfl⟩
      · exact ⟨y', second, .inl ⟨(first.eq_of_isVar isVar).symm, rfl⟩⟩
      · exact ⟨x', first, .inr ⟨(second.eq_of_isVar isVar).symm, rfl⟩⟩
    have older' : e'.isVar = true → e'.addr ≤ v.addr := by
      intro eVar
      obtain rfl := cell.symm.eq_of_isVar eVar
      exact older eVar
    obtain ⟨u', bound', later⟩ := bind_renamed renamed cell bound
    refine ⟨some (work', u'), ?_, .some pairs later⟩
    rw [unifyTurn_binds ax' bY' (mt equal_iff.mpr other) sides' isVar older', bound',
      Halt.ok_bind]
  | structures other tagX tagY =>
    rw [unifyTurn_structures ax bY other tagX tagY] at turned
    obtain ⟨q, pushed, turned⟩ := Halt.bind_eq_ok.mp turned
    cases turned
    obtain rfl := first.eq (by rw [tagX]; decide)
    obtain rfl := second.eq (by rw [tagY]; decide)
    obtain ⟨termX, termY⟩ := within.sides ax bY
    obtain ⟨lowX, n, blockX⟩ := termX.ref tagX
    obtain ⟨lowY, m, blockY⟩ := termY.ref tagY
    obtain ⟨q', pushed', later⟩ :=
      pushStructures_renamed sound sound' renamed lowX lowY blockX blockY pairs pushed
    refine ⟨q'.map (·, s'), ?_, ?_⟩
    · rw [unifyTurn_structures ax' bY' other tagX tagY, pushed', Halt.ok_bind]
    · cases later with
      | none => exact .none
      | some later => exact .some later renamed
  | clash other xValue yValue clash =>
    rw [unifyTurn_clash ax bY other xValue yValue clash] at turned
    cases turned
    refine ⟨none, unifyTurn_clash ax' bY' (mt equal_iff.mpr other) ?_ ?_ ?_, .none⟩
    · rw [first.isVar, xValue]
    · rw [second.isVar, yValue]
    · rwa [first.tag, second.tag]

/-- Unification of corresponding terms succeeds on both sides or on neither. -/
theorem unifyAll_renamed (sound : t.Sound) (sound' : t'.Sound) {fuel : Nat} {unified : Bool}
    (within : Within lo count start work s) (renamed : s.heap.Renamed t t' lo s'.heap)
    (pairs : List.Forall₂ (Cell.PairRenamed t t') work work')
    (e : unifyAll boundary fuel work s = .ok (unified, u)) :
    ∃ u', unifyAll boundary fuel work' s' = .ok (unified, u') ∧
      u.heap.Renamed t t' lo u'.heap := by
  induction fuel generalizing work work' s s' with
  | zero =>
    cases pairs with
    | nil =>
      cases e
      exact ⟨s', rfl, renamed⟩
    | cons _ _ => simp [unifyAll] at e
  | succ fuel ih =>
    cases pairs with
    | nil =>
      simp only [unifyAll, Except.ok.injEq, Prod.mk.injEq] at e
      obtain ⟨rfl, rfl⟩ := e
      exact ⟨s', rfl, renamed⟩
    | @cons p q work work' sides pairs =>
      obtain ⟨a, b⟩ := p
      rw [unifyAll_cons, Halt.bind_eq_ok] at e
      obtain ⟨o, turned, rest⟩ := e
      obtain ⟨o', turned', later⟩ :=
        unifyTurn_renamed sound sound' within renamed sides.1 sides.2 pairs turned
      rw [unifyAll_cons, turned', Halt.ok_bind]
      cases later with
      | none =>
        cases rest
        exact ⟨s', rfl, renamed⟩
      | some pairs' renamed' =>
        obtain ⟨x, y, ax, bY, met⟩ := Met.of_unifyTurn turned
        exact ih (within.turn ax bY met) renamed' pairs' rest

end Store

/-! ### Copies -/

variable {lo count fuel : Nat} {h h' k : Heap}

theorem Heap.Renamed.exists_append {cs ds : List Cell} (renamed : h.Renamed t t' lo k)
    (e : h'.toList = h.toList ++ cs) (cells : List.Forall₂ (Cell.Renamed t t') cs ds) :
    ∃ k' : Heap, k'.toList = k.toList ++ ds ∧ h'.Renamed t t' lo k' := by
  have bound := h'.top_lt
  rw [top_append e, cells.length_eq, ← renamed.top] at bound
  have list : (⟨(k.toList ++ ds).toArray, by simpa using bound⟩ : Heap).toList =
      k.toList ++ ds := by simp [toList]
  exact ⟨_, list, renamed.append e list cells⟩

/-- An attempt with corresponding code has the same outcome, and leaves heaps that
correspond. -/
theorem ClauseCode.Renamed.attempt {w : Codes} {code code' : ClauseCode} {goal : Cell}
    {unified : Bool} (sound : t.Sound) (sound' : t'.Sound) (same : code.Renamed t t' code')
    (renamed : h.Renamed t t' w.floor k) (safe : h.Safe w) (usable : code.Usable w.count)
    (term : h.IsTerm w.floor w.count goal) (tag : goal.tag = .structRef)
    (e : code.attempt fuel goal h = .ok (unified, h')) :
    ∃ k', code'.attempt fuel goal k = .ok (unified, k') ∧ h'.Renamed t t' w.floor k' := by
  obtain ⟨full, s, whole, unify, rfl⟩ := ClauseCode.attempt_eq_ok.mp e
  have cells : List.Forall₂ (Cell.Renamed t t') (code.cells.toList.map (·.relocate h.top))
      (code'.cells.toList.map (·.relocate k.top)) := by
    rw [renamed.top, List.forall₂_map_left_iff, List.forall₂_map_right_iff]
    exact same.cells.imp fun _ _ cell => cell.relocate h.top
  obtain ⟨full', whole', copies⟩ :=
    renamed.exists_append (ClauseCode.copied_size.mp whole) cells
  have within := safe.within usable usable.linked.cut_size
    (usable.head_lt.trans_le usable.headLen_le) whole term {}
  have head : code'.head.relocate k.top = code.head.relocate h.top := by
    rw [ClauseCode.head, ClauseCode.head, same.goals, renamed.top]
  have headTag : (code.head.relocate h.top).tag = .structRef :=
    (Cell.tag_relocate _ _).trans usable.head_block.1
  have stores : (⟨full, {}⟩ : Store).heap.Renamed t t' w.floor (⟨full', {}⟩ : Store).heap := copies
  obtain ⟨s', unify', later⟩ := Store.unifyAll_renamed sound sound' within
    stores (.cons ⟨.same (by rw [tag]; decide), .same (by rw [headTag]; decide)⟩ .nil) unify
  refine ⟨s'.heap, ClauseCode.attempt_eq_ok.mpr
    ⟨full', s', ClauseCode.copied_size.mpr whole', ?_, rfl⟩, later⟩
  rw [head, renamed.top]
  exact unify'

/-! ### Terms -/

/-- The same finished term, or the same structure with corresponding elements. -/
inductive Opened.Renamed (t t' : Symbols) : Opened → Opened → Prop
  | leaf {x : Term} : Renamed t t' (.leaf x) (.leaf x)
  | block {header : Nat} {elements elements' : List Cell} :
      List.Forall₂ (Cell.Renamed t t') elements elements' →
      Renamed t t' (.block header elements) (.block header elements')

theorem Symbols.showCell_eq {c : Cell} (t t' : Symbols) (other : c.tag ≠ .constant) :
    t'.showCell c = t.showCell c := by
  unfold showCell
  split
  · next tag => exact absurd tag other
  · rfl
  · rfl

namespace Heap.Renamed

variable {a n : Nat} {c d : Cell} {x : Term}

theorem span (renamed : h.Renamed t t' lo k) (low : lo ≤ a) (inside : a + n ≤ h.top) :
    List.Forall₂ (Cell.Renamed t t') (h.span a n) (k.span a n) := by
  have inside' : a + n ≤ k.top := renamed.top.symm ▸ inside
  refine List.forall₂_iff_get.mpr ⟨by rw [length_span inside, length_span inside'], ?_⟩
  intro i short short'
  rw [length_span inside] at short
  have found := List.getElem?_eq_getElem (l := h.span a n) (i := i) (by rwa [length_span inside])
  have found' := List.getElem?_eq_getElem (l := k.span a n) (i := i)
    (by rwa [length_span inside'])
  rw [getElem?_span short] at found found'
  exact renamed.cell _ _ _ (by omega) found found'

theorem openCell (renamed : h.Renamed t t' lo k)
    (closed : h.Closed lo count) (term : h.IsTerm lo count c) (cell : c.Renamed t t' d)
    {o : Opened} (opened : h.openCell t c = .ok o) :
    ∃ o', k.openCell t' d = .ok o' ∧ o.Renamed t t' o' := by
  obtain ⟨y, ended, opened⟩ := Halt.bind_eq_ok.mp opened
  obtain ⟨z, ended', value⟩ := renamed.deref closed term cell ended
  have termY := (Leads.of_deref ended).term closed term
  unfold Heap.openCell
  rw [ended', Halt.ok_bind]
  cases value with
  | symbol known known' =>
    simp only [Cell.tag_constant, Symbols.nameOf_constant known,
      Symbols.nameOf_constant known'] at opened ⊢
    exact ⟨_, rfl, by rw [← Except.ok.inj opened]; exact .leaf⟩
  | same other =>
    split at opened
    · next tag => exact absurd tag other
    · exact ⟨_, rfl, by rw [← Except.ok.inj opened]; exact .leaf⟩
    · exact ⟨_, rfl, by rw [← Except.ok.inj opened]; exact .leaf⟩
    · next tag =>
      obtain ⟨low, n, block⟩ := termY.ref tag
      obtain ⟨_, header, same⟩ := renamed.get? low block.1
      obtain rfl := same.eq (by rw [Cell.tag_header]; decide)
      have inside := block.count_le
      rw [openStructure_of_header block.1 inside] at opened
      refine ⟨_, openStructure_of_header header (renamed.top.symm ▸ inside), ?_⟩
      rw [← Except.ok.inj opened]
      exact .block (renamed.span (by omega) (by omega))
    · refine ⟨_, rfl, ?_⟩
      rw [← Except.ok.inj opened, Symbols.showCell_eq t t' other]
      exact .leaf

theorem mapM_termAt {f g : Cell → Except Halt Term} {cs ds : List Cell} {xs : List Term}
    (cells : List.Forall₂ (Cell.Renamed t t') cs ds)
    (each : ∀ c ∈ cs, ∀ d x, c.Renamed t t' d → f c = .ok x → g d = .ok x)
    (e : cs.mapM f = .ok xs) : ds.mapM g = .ok xs := by
  induction cells generalizing xs with
  | nil => exact e
  | @cons c d cs ds cell _ ih =>
    obtain ⟨here, later⟩ := List.forall_mem_cons.mp each
    rw [List.mapM_cons] at e ⊢
    obtain ⟨x, first, e⟩ := Halt.bind_eq_ok.mp e
    obtain ⟨xs, rest, e⟩ := Halt.bind_eq_ok.mp e
    rw [here d x cell first, Halt.ok_bind, ih later rest, Halt.ok_bind]
    exact e

theorem termAt (renamed : h.Renamed t t' lo k)
    (closed : h.Closed lo count) {left : Nat} {opens : List Nat} (term : h.IsTerm lo count c)
    (cell : c.Renamed t t' d) (e : h.termAt t left opens c = .ok x) :
    k.termAt t' left opens d = .ok x := by
  induction left generalizing opens c d x with
  | zero =>
    obtain ⟨o, opened, e⟩ := Halt.bind_eq_ok.mp e
    obtain ⟨o', opened', same⟩ := renamed.openCell closed term cell opened
    cases same with
    | leaf => rw [termAt_leaf opened']; exact e
    | block _ => rw [termAt_cut opened' (.inl rfl)]; exact e
  | succ left ih =>
    obtain ⟨o, opened, -⟩ := Halt.bind_eq_ok.mp e
    obtain ⟨o', opened', same⟩ := renamed.openCell closed term cell opened
    cases same with
    | leaf =>
      rw [termAt_leaf opened] at e
      rw [termAt_leaf opened']
      exact e
    | @block a elements elements' cells =>
      by_cases again : a ∈ opens
      · rw [termAt_cut opened (.inr again)] at e
        rw [termAt_cut opened' (.inr again)]
        exact e
      · rw [termAt_block opened again] at e
        rw [termAt_block opened' again]
        obtain ⟨xs, read, e⟩ := Halt.bind_eq_ok.mp e
        obtain ⟨o₂, opened₂, terms⟩ := closed.exists_openCell term t
        obtain rfl := Except.ok.inj (opened.symm.trans opened₂)
        rw [mapM_termAt cells (fun c member d x => ih (terms a elements rfl c member)) read]
        exact e

theorem readout (renamed : h.Renamed t t' lo k)
    (closed : h.Closed lo count) (term : h.IsTerm lo count c) (cell : c.Renamed t t' d)
    (e : h.readout t c = .ok x) : k.readout t' d = .ok x := by
  rw [readout_eq] at e ⊢
  exact renamed.termAt closed term cell e

end Heap.Renamed

end HornMachine
