import HornMachine.Proofs.ClosedHeap

/-!
# Unification inside a closed region

Inside a closed region a turn of unification always has an outcome: chains end,
blocks are complete, and what is left to do lies in the region again. Cells
appended above the region are never looked at. So it makes no difference for a
unification whether the rest of a clause is copied before it or after it, nor
which bindings it logs.
-/
namespace HornMachine

theorem Heap.deref_append {h k : Heap} {cs : List Cell} (e : k.toList = h.toList ++ cs)
    {c x : Cell} (ended : h.deref c = .ok x) : k.deref c = .ok x :=
  Heap.deref_eq_ok.mpr ((Heap.Leads.of_deref ended).append e)

namespace Store

/-- `s'` has the heap of `s` with `ext` on top. -/
def Below (ext : List Cell) (s s' : Store) : Prop := s'.heap.toList = s.heap.toList ++ ext

variable {ext : List Cell} {s s' t : Store} {boundary boundary' : Nat} {a b : Cell}
  {work : List (Cell × Cell)} {lo count : Nat}

theorem Below.bind {addr : Nat} {v : Cell} (below : Below ext s s') (boundary' : Nat)
    (bound : s.bind boundary addr v = .ok t) :
    ∃ t', s'.bind boundary' addr v = .ok t' ∧ Below ext t t' := by
  have written := (bind_eq_ok.mp bound).1
  obtain ⟨inside, list⟩ := Heap.write_eq_ok.mp written
  have inside' : addr < s'.heap.top := by
    rw [Heap.top_append below]
    omega
  obtain ⟨k, written'⟩ := Heap.exists_write inside' v
  refine ⟨⟨k, if addr ≤ boundary' then s'.trail.push addr else s'.trail⟩,
    bind_eq_ok.mpr ⟨written', rfl⟩, ?_⟩
  unfold Below at below ⊢
  rw [(Heap.write_eq_ok.mp written').2, below, list, List.set_append_left _ _ (by simpa using inside)]

theorem pushElements_append {h k : Heap} (e : k.toList = h.toList ++ ext) {a b n : Nat}
    {queued : List (Cell × Cell)} (pushed : pushElements h a b n work = .ok queued) :
    pushElements k a b n work = .ok queued := by
  induction n generalizing work with
  | zero => exact pushed
  | succ n ih =>
    simp only [pushElements, Halt.bind_eq_ok, Heap.read_eq_ok] at pushed ⊢
    obtain ⟨x, atX, y, atY, pushed⟩ := pushed
    exact ⟨x, Heap.get?_append_left e atX, y, Heap.get?_append_left e atY, ih pushed⟩

theorem pushStructures_append {h k : Heap} (e : k.toList = h.toList ++ ext) {a b : Nat}
    {q : Option (List (Cell × Cell))} (pushed : pushStructures h a b work = .ok q) :
    pushStructures k a b work = .ok q := by
  obtain ⟨c, d, atA, atB, elements⟩ := pushStructures_eq_ok.mp pushed
  refine pushStructures_eq_ok.mpr
    ⟨c, d, Heap.get?_append_left e atA, Heap.get?_append_left e atB, ?_⟩
  split at elements
  · next headers =>
    obtain ⟨queued, elements, rfl⟩ := elements
    rw [if_pos headers]
    exact ⟨queued, pushElements_append e elements, rfl⟩
  · next headers => rwa [if_neg headers]

/-- A turn does the same below appended cells, and logs what it likes. -/
theorem unifyTurn_append (below : Below ext s s') (boundary' : Nat)
    {o : Option (List (Cell × Cell) × Store)}
    (turned : unifyTurn boundary a b work s = .ok o) :
    (o = none ∧ unifyTurn boundary' a b work s' = .ok none) ∨
    ∃ queued t t', o = some (queued, t) ∧
      unifyTurn boundary' a b work s' = .ok (some (queued, t')) ∧ Below ext t t' := by
  obtain ⟨x, y, ax, bY⟩ := leads_of_unifyTurn turned
  have ax' : s'.heap.Leads a x := ax.append below
  have bY' : s'.heap.Leads b y := bY.append below
  cases ends_cases x y with
  | same equal =>
    subst equal
    rw [unifyTurn_same ax bY] at turned
    cases turned
    exact .inr ⟨work, s, s', rfl, unifyTurn_same ax' bY', below⟩
  | binds other sides isVar older =>
    rw [unifyTurn_binds ax bY other sides isVar older] at turned
    obtain ⟨t, bound, turned⟩ := Halt.bind_eq_ok.mp turned
    obtain ⟨t', bound', below'⟩ := below.bind boundary' bound
    cases turned
    refine .inr ⟨work, t, t', rfl, ?_, below'⟩
    rw [unifyTurn_binds ax' bY' other sides isVar older, bound', Halt.ok_bind]
  | structures other tagX tagY =>
    rw [unifyTurn_structures ax bY other tagX tagY] at turned
    obtain ⟨q, pushed, turned⟩ := Halt.bind_eq_ok.mp turned
    cases turned
    have turned' : unifyTurn boundary' a b work s' = .ok (q.map (·, s')) := by
      rw [unifyTurn_structures ax' bY' other tagX tagY, pushStructures_append below pushed,
        Halt.ok_bind]
    cases q with
    | none => exact .inl ⟨rfl, turned'⟩
    | some queued => exact .inr ⟨queued, s, s', rfl, turned', below⟩
  | clash other xValue yValue clash =>
    rw [unifyTurn_clash ax bY other xValue yValue clash] at turned
    cases turned
    exact .inl ⟨rfl, unifyTurn_clash ax' bY' other xValue yValue clash⟩

/-- A unification does the same below appended cells. -/
theorem unifyAll_append {fuel : Nat} {unified : Bool} (below : Below ext s s') (boundary' : Nat)
    (e : unifyAll boundary fuel work s = .ok (unified, t)) :
    ∃ t', unifyAll boundary' fuel work s' = .ok (unified, t') ∧ Below ext t t' := by
  induction fuel generalizing work s s' with
  | zero =>
    cases work with
    | nil =>
      cases e
      exact ⟨s', rfl, below⟩
    | cons p work => simp [unifyAll] at e
  | succ fuel ih =>
    cases work with
    | nil =>
      simp only [unifyAll, Except.ok.injEq, Prod.mk.injEq] at e
      obtain ⟨rfl, rfl⟩ := e
      exact ⟨s', rfl, below⟩
    | cons p work =>
      obtain ⟨a, b⟩ := p
      rw [unifyAll_cons, Halt.bind_eq_ok] at e
      obtain ⟨o, turned, rest⟩ := e
      rcases unifyTurn_append below boundary' turned with
        ⟨rfl, turned'⟩ | ⟨queued, u, u', rfl, turned', below'⟩
      · cases rest
        exact ⟨s', by rw [unifyAll_cons, turned', Halt.ok_bind], below⟩
      · obtain ⟨t', ended, final⟩ := ih below' rest
        exact ⟨t', by rw [unifyAll_cons, turned', Halt.ok_bind]; exact ended, final⟩

/-! ### Staying inside the region -/

/-- A unification inside the region from `lo` on that started from `start`. -/
structure Within (lo count : Nat) (start : Heap) (work : List (Cell × Cell)) (s : Store) :
    Prop where
  closed : s.heap.Closed lo count
  rooted : s.heap.Rooted
  terms : ∀ p ∈ work, s.heap.IsTerm lo count p.1 ∧ s.heap.IsTerm lo count p.2
  keeps : Heap.Keeps lo start s.heap
  top : s.heap.top = start.top

variable {start : Heap} {x y : Cell} {queued : List (Cell × Cell)}

theorem Within.sides (within : Within lo count start ((a, b) :: work) s)
    (ax : s.heap.Leads a x) (bY : s.heap.Leads b y) :
    s.heap.IsTerm lo count x ∧ s.heap.IsTerm lo count y := by
  obtain ⟨termA, termB⟩ := within.terms (a, b) (List.mem_cons_self ..)
  exact ⟨ax.term within.closed termA, bY.term within.closed termB⟩

theorem Within.elements {m n c : Nat} (within : Within lo count start work s)
    (lowM : lo ≤ m) (lowN : lo ≤ n) (blockM : s.heap.HasBlock m c)
    (blockN : s.heap.HasBlock n c) (pushed : pushElements s.heap m n c work = .ok queued) :
    Within lo count start queued s := by
  refine ⟨within.closed, within.rooted, ?_, within.keeps, within.top⟩
  intro p member
  rcases (pushElements_spec pushed).2.2 p member with old | ⟨i, inside, atM, atN⟩
  · exact within.terms p old
  · obtain ⟨d, found, element⟩ := blockM.2 i inside
    obtain ⟨e, found', element'⟩ := blockN.2 i inside
    rw [atM, Option.some.injEq] at found
    rw [atN, Option.some.injEq] at found'
    subst found found'
    exact ⟨(within.closed _ _ (by omega) atM element).1,
      (within.closed _ _ (by omega) atN element').1⟩

theorem Within.turn (within : Within lo count start ((a, b) :: work) s)
    (ax : s.heap.Leads a x) (bY : s.heap.Leads b y)
    (met : Met boundary s work x y (some (queued, t))) :
    Within lo count start queued t := by
  obtain ⟨termX, termY⟩ := within.sides ax bY
  have rest : Within lo count start work s :=
    ⟨within.closed, within.rooted, fun p member => within.terms p (List.mem_cons_of_mem _ member),
      within.keeps, within.top⟩
  cases met with
  | same _ => exact rest
  | @opened c _ _ tagX tagY atX atY pushed =>
    obtain ⟨lowX, n, blockX⟩ := termX.ref tagX
    obtain ⟨lowY, m, blockY⟩ := termY.ref tagY
    obtain rfl : c = Cell.header n := Option.some.inj (atX.symm.trans blockX.1)
    have headers : Cell.header n = Cell.header m := Option.some.inj (atY.symm.trans blockY.1)
    obtain rfl := Cell.make_inj blockX.count_lt blockY.count_lt headers
    rw [blockX.addr_header] at pushed
    exact rest.elements lowX lowY blockX blockY pushed
  | @bound v e _ other sides isVar older binding =>
    obtain ⟨atV, apart⟩ := bound_root ax bY other sides isVar
    have written := (bind_eq_ok.mp binding).1
    have termV : s.heap.IsTerm lo count v ∧ s.heap.IsTerm lo count e := by
      rcases sides with ⟨rfl, rfl⟩ | ⟨rfl, rfl⟩
      · exact ⟨termX, termY⟩
      · exact ⟨termY, termX⟩
    have above := (termV.1.var isVar).1
    have keeps : Heap.Keeps lo s.heap t.heap :=
      .write written atV isVar above termV.2.element
    exact ⟨within.closed.write written atV isVar above termV.2 older,
      within.rooted.write written apart,
      fun p member => ⟨(rest.terms p member).1.mono keeps, (rest.terms p member).2.mono keeps⟩,
      within.keeps.trans keeps, (Heap.top_write written).trans within.top⟩

theorem Within.unifyAll {fuel : Nat} {unified : Bool} (within : Within lo count start work s)
    (e : unifyAll boundary fuel work s = .ok (unified, t)) : Within lo count start [] t := by
  obtain ⟨left, final, -⟩ := unifyAll_keeps
    (I := fun work s => Within lo count start work s)
    (fun within ax bY met => within.turn ax bY met) within e
  exact ⟨final.closed, final.rooted, nofun, final.keeps, final.top⟩

theorem Within.exists_turn (within : Within lo count start ((a, b) :: work) s) (boundary : Nat) :
    ∃ o, unifyTurn boundary a b work s = .ok o := by
  obtain ⟨termA, termB⟩ := within.terms (a, b) (List.mem_cons_self ..)
  obtain ⟨x, ax⟩ := within.closed.exists_deref termA
  obtain ⟨y, bY⟩ := within.closed.exists_deref termB
  obtain ⟨termX, termY⟩ := within.sides (.of_deref ax) (.of_deref bY)
  exact exists_unifyTurn (.of_deref ax) (.of_deref bY) termX.complete termY.complete boundary work

/-- Inside a closed region, what happens below appended cells happens without
them. -/
theorem Within.unifyAll_of_append {fuel : Nat} {unified : Bool} {t' : Store}
    (within : Within lo count start work s) (boundary : Nat) (below : Below ext s s')
    (e : Store.unifyAll boundary' fuel work s' = .ok (unified, t')) :
    ∃ t, Store.unifyAll boundary fuel work s = .ok (unified, t) ∧ Below ext t t' := by
  induction fuel generalizing work s s' with
  | zero =>
    cases work with
    | nil =>
      cases e
      exact ⟨s, rfl, below⟩
    | cons p work => simp [Store.unifyAll] at e
  | succ fuel ih =>
    cases work with
    | nil =>
      simp only [Store.unifyAll, Except.ok.injEq, Prod.mk.injEq] at e
      obtain ⟨rfl, rfl⟩ := e
      exact ⟨s, rfl, below⟩
    | cons p work =>
      obtain ⟨a, b⟩ := p
      rw [unifyAll_cons, Halt.bind_eq_ok] at e
      obtain ⟨o', turned', rest⟩ := e
      obtain ⟨o, turned⟩ := within.exists_turn boundary
      rcases unifyTurn_append below boundary' turned with
        ⟨rfl, none⟩ | ⟨queued, u, u', rfl, some, below'⟩
      · rw [none, Except.ok.injEq] at turned'
        subst turned'
        cases rest
        exact ⟨s, by rw [unifyAll_cons, turned, Halt.ok_bind], below⟩
      · rw [some, Except.ok.injEq] at turned'
        subst turned'
        obtain ⟨x, y, ax, bY, met⟩ := Met.of_unifyTurn turned
        obtain ⟨t, ended, final⟩ := ih (within.turn ax bY met) below' rest
        exact ⟨t, by rw [unifyAll_cons, turned, Halt.ok_bind]; exact ended, final⟩

end Store

end HornMachine
