import HornMachine.Proofs.UnificationTurn

/-!
# Cells that denote the same tree

Without an occurs check a unification may tie a structure into itself, and what a
cell denotes is then an infinite tree. Two cells denote the same tree if some
relation contains them that holds only of cells that look alike: both dereference to
the same cell, or to structures with equal headers whose elements are related again.

When a unification succeeds, the structures it opened are such a relation. Each pair
of them has its elements either related already or still on the work list; a binding
only joins chains, so what looked alike goes on looking alike.
-/
namespace HornMachine

namespace Heap

/-- Variable chains end on the heap, and references lead to complete structures. -/
structure Sound (h : Heap) : Prop where
  ends : ∀ a c, h.get? a = some c → ∃ x, h.deref c = .ok x
  refs : ∀ a c, h.get? a = some c → c.tag = .structRef → h.Complete c.addr

instance (h : Heap) : Decidable h.Sound :=
  decidable_of_iff (∀ a ∈ List.range h.top, ∀ c ∈ h.get? a,
      (h.deref c).toOption.isSome = true ∧ (c.tag = .structRef → h.Complete c.addr))
    ⟨fun all => by
      have each {a : Nat} {c : Cell} (found : h.get? a = some c) :=
        all a (List.mem_range.mpr (lt_top_of_get? found)) c found
      refine ⟨fun a c found => ?_, fun a c found => (each found).2⟩
      have returned := (each found).1
      cases ended : h.deref c with
      | error e =>
        rw [ended] at returned
        cases returned
      | ok x => exact ⟨x, rfl⟩,
    fun sound a _ c found => by
      obtain ⟨x, ended⟩ := sound.ends a c found
      exact ⟨by rw [ended]; rfl, sound.refs a c found⟩⟩

/-- The cell is no reference to a variable. -/
def Headed (h : Heap) (c : Cell) : Prop :=
  c.tag = .structRef → ∀ d, h.get? c.addr = some d → d.isVar = false

instance (h : Heap) (c : Cell) : Decidable (h.Headed c) :=
  inferInstanceAs (Decidable (c.tag = .structRef → ∀ d, d ∈ h.get? c.addr → d.isVar = false))

/-- Two cells look alike up to `R`: they dereference to the same cell, or to references
to equal headers whose elements `R` relates. -/
def Alike (h : Heap) (R : Cell → Cell → Prop) (a b : Cell) : Prop :=
  ∃ x y, h.deref a = .ok x ∧ h.deref b = .ok y ∧
    (x = y ∨ x.tag = .structRef ∧ y.tag = .structRef ∧
      ∃ c, h.get? x.addr = some c ∧ h.get? y.addr = some c ∧
        ∀ i, i < c.addr → ∃ d e, h.get? (x.addr + 1 + i) = some d ∧
          h.get? (y.addr + 1 + i) = some e ∧ R d e)

/-- Two cells denote the same tree, which may be infinite. -/
def SameTree (h : Heap) (a b : Cell) : Prop :=
  ∃ R : Cell → Cell → Prop, R a b ∧ ∀ c d, R c d → h.Alike R c d

variable {h k : Heap} {a b c c' d d' e v x y : Cell} {opened opened' : Cell → Cell → Prop}
  {work queued : List (Cell × Cell)}

theorem Sound.headed (sound : h.Sound) {a : Nat} (found : h.get? a = some c) : h.Headed c := by
  intro tag d there
  obtain ⟨n, header, -⟩ := sound.refs a c found tag
  obtain rfl := Option.some.inj (there.symm.trans header)
  exact Cell.header_isVar n

/-! ### Chains with the same end -/

/-- Both chains end at the same cell. -/
def Meet (h : Heap) (c d : Cell) : Prop := ∃ x, h.Leads c x ∧ h.Leads d x

theorem Meet.refl (leads : h.Leads c x) : h.Meet c c := ⟨x, leads, leads⟩

theorem Meet.leads (meet : h.Meet c d) (leads : h.Leads d x) : h.Leads c x := by
  obtain ⟨z, cz, dz⟩ := meet
  exact dz.unique leads ▸ cz

theorem Meet.symm (meet : h.Meet c d) : h.Meet d c := by
  obtain ⟨x, cx, dx⟩ := meet
  exact ⟨x, dx, cx⟩

theorem Meet.trans (first : h.Meet c d) (second : h.Meet d e) : h.Meet c e := by
  obtain ⟨x, dx, ex⟩ := second
  exact ⟨x, first.leads dx, ex⟩

theorem Meet.bind (meet : h.Meet c d) (binding : h.Binding k v e) : k.Meet c d := by
  obtain ⟨x, cx, dx⟩ := meet
  by_cases same : x = v
  · subst same
    exact ⟨e, binding.leads_bound cx, binding.leads_bound dx⟩
  · exact ⟨x, binding.leads cx same, binding.leads dx same⟩

/-- What lies at an address after a binding has the same end as what lay there. -/
theorem Binding.exists_meet (binding : h.Binding k v e) {a : Nat} (found : h.get? a = some c)
    (leads : h.Leads c x) : ∃ d, k.get? a = some d ∧ k.Meet c d := by
  rw [binding.get?]
  split
  · next same =>
    subst same
    obtain rfl := Option.some.inj (found.symm.trans binding.root)
    exact ⟨e, rfl, e, binding.leads_bound (.root binding.isVar binding.root),
      binding.leads binding.ended binding.other⟩
  · obtain ⟨y, cy⟩ := binding.exists_leads leads
    exact ⟨c, found, .refl cy⟩

theorem Headed.bind (headed : h.Headed c) (binding : h.Binding k v e) : k.Headed c := by
  intro tag d there
  rw [binding.get?] at there
  split at there
  · next same =>
    have bound := headed tag v (same ▸ binding.root)
    exact Bool.noConfusion (bound.symm.trans binding.isVar)
  · exact headed tag d there

theorem Leads.headed (leads : h.Leads c x) (headed : h.Headed c)
    (all : ∀ a c, h.get? a = some c → h.Headed c) : h.Headed x := leads.holds headed all

/-! ### Cells that are or will be joined -/

/-- The ends of the chains are equal, or structures that were opened together. -/
def Joined (h : Heap) (opened : Cell → Cell → Prop) (c d : Cell) : Prop :=
  ∃ x y, h.Leads c x ∧ h.Leads d y ∧ (x = y ∨ opened x y)

/-- The cells are joined, or what they lead to waits on the work list. -/
def Due (h : Heap) (opened : Cell → Cell → Prop) (work : List (Cell × Cell)) (c d : Cell) :
    Prop :=
  h.Joined opened c d ∨ ∃ p ∈ work, h.Meet c p.1 ∧ h.Meet d p.2

theorem Due.congr (due : h.Due opened work c d) (left : h.Meet c' c) (right : h.Meet d' d) :
    h.Due opened work c' d' := by
  rcases due with ⟨x, y, cx, dy, joined⟩ | ⟨p, member, first, second⟩
  · exact .inl ⟨x, y, left.leads cx, right.leads dy, joined⟩
  · exact .inr ⟨p, member, left.trans first, right.trans second⟩

/-- Bindings never part what is joined: a structure that was opened is no variable. -/
theorem Due.bind (due : h.Due opened work c d) (binding : h.Binding k v e)
    (values : ∀ x y, opened x y → x ≠ v ∧ y ≠ v) : k.Due opened work c d := by
  rcases due with ⟨x, y, cx, dy, rfl | joined⟩ | ⟨p, member, first, second⟩
  · obtain ⟨z, cz, dz⟩ := Meet.bind ⟨x, cx, dy⟩ binding
    exact .inl ⟨z, z, cz, dz, .inl rfl⟩
  · obtain ⟨left, right⟩ := values x y joined
    exact .inl ⟨x, y, binding.leads cx left, binding.leads dy right, .inr joined⟩
  · exact .inr ⟨p, member, first.bind binding, second.bind binding⟩

theorem Due.turn (due : h.Due opened ((a, b) :: work) c d) (joined : h.Joined opened' a b)
    (grows : ∀ x y, opened x y → opened' x y) (kept : ∀ p ∈ work, p ∈ queued) :
    h.Due opened' queued c d := by
  rcases due with ⟨x, y, cx, dy, old⟩ | ⟨p, member, first, second⟩
  · exact .inl ⟨x, y, cx, dy, old.imp_right (grows x y)⟩
  · rcases List.mem_cons.mp member with rfl | later
    · obtain ⟨x, y, ax, bY, new⟩ := joined
      exact .inl ⟨x, y, first.leads ax, second.leads bY, new⟩
    · exact .inr ⟨p, kept p later, first, second⟩

/-- The structures at `x` and `y` have equal headers, and their elements are joined or
will be. -/
def Opens (h : Heap) (opened : Cell → Cell → Prop) (work : List (Cell × Cell)) (x y : Cell) :
    Prop :=
  x.tag = .structRef ∧ y.tag = .structRef ∧
    ∃ c, h.get? x.addr = some c ∧ h.get? y.addr = some c ∧ c.isVar = false ∧
      ∀ i, i < c.addr → ∃ d e, h.get? (x.addr + 1 + i) = some d ∧
        h.get? (y.addr + 1 + i) = some e ∧ h.Due opened work d e

theorem Opens.imp (opens : h.Opens opened work x y)
    (due : ∀ c d, h.Due opened work c d → h.Due opened' queued c d) :
    h.Opens opened' queued x y := by
  obtain ⟨tagX, tagY, c, atX, atY, value, elements⟩ := opens
  refine ⟨tagX, tagY, c, atX, atY, value, fun i inside => ?_⟩
  obtain ⟨d, e, foundX, foundY, old⟩ := elements i inside
  exact ⟨d, e, foundX, foundY, due d e old⟩

theorem Opens.bind (opens : h.Opens opened work x y) (binding : h.Binding k v e)
    (values : ∀ x y, opened x y → x ≠ v ∧ y ≠ v)
    (ends : ∀ a c, h.get? a = some c → ∃ x, h.Leads c x) : k.Opens opened work x y := by
  obtain ⟨tagX, tagY, c, atX, atY, value, elements⟩ := opens
  refine ⟨tagX, tagY, c, binding.get?_of_value atX value, binding.get?_of_value atY value,
    value, fun i inside => ?_⟩
  obtain ⟨d, e, foundX, foundY, due⟩ := elements i inside
  obtain ⟨z, dz⟩ := ends _ _ foundX
  obtain ⟨z', ez⟩ := ends _ _ foundY
  obtain ⟨d', nowX, meetD⟩ := binding.exists_meet foundX dz
  obtain ⟨e', nowY, meetE⟩ := binding.exists_meet foundY ez
  exact ⟨d', e', nowX, nowY, (due.bind binding values).congr meetD.symm meetE.symm⟩

end Heap

namespace Store

variable {boundary fuel : Nat} {s t : Store} {opened : Cell → Cell → Prop}
  {work queued : List (Cell × Cell)} {goal head a b x y : Cell}

/-- What a unification of `goal` and `head` has joined so far, and what is left. -/
structure Joining (goal head : Cell) (opened : Cell → Cell → Prop)
    (work : List (Cell × Cell)) (s : Store) : Prop where
  ends : ∀ a c, s.heap.get? a = some c → ∃ x, s.heap.Leads c x
  headed : ∀ a c, s.heap.get? a = some c → s.heap.Headed c
  pairs : ∀ p ∈ work, s.heap.Headed p.1 ∧ s.heap.Headed p.2
  due : s.heap.Due opened work goal head
  opens : ∀ x y, opened x y → s.heap.Opens opened work x y

/-- Equal cells need no look: they are dropped from the work list at once. -/
theorem Joining.same (joining : Joining goal head opened ((a, b) :: work) s)
    (ax : s.heap.Leads a x) (bX : s.heap.Leads b x) : Joining goal head opened work s := by
  have turn {c d : Cell} (due : s.heap.Due opened ((a, b) :: work) c d) :
      s.heap.Due opened work c d :=
    due.turn ⟨x, x, ax, bX, .inl rfl⟩ (fun _ _ => id) fun _ => id
  exact ⟨joining.ends, joining.headed, fun p member => joining.pairs p (.tail _ member),
    turn joining.due, fun x y old => (joining.opens x y old).imp fun _ _ => turn⟩

/-- A binding joins the two chains. -/
theorem Joining.bound {v e : Cell} (joining : Joining goal head opened ((a, b) :: work) s)
    (ax : s.heap.Leads a x) (bY : s.heap.Leads b y) (sides : v = x ∧ e = y ∨ v = y ∧ e = x)
    (binding : s.heap.Binding t.heap v e) : Joining goal head opened work t := by
  obtain ⟨headedA, headedB⟩ := joining.pairs (a, b) (.head _)
  have values : ∀ x y, opened x y → x ≠ v ∧ y ≠ v := by
    intro x y old
    obtain ⟨tagX, tagY, -⟩ := joining.opens x y old
    have apart {z : Cell} (tag : z.tag = .structRef) : z ≠ v := by
      rintro rfl
      have notVar := Cell.not_isVar_of_tag tag (by decide) (by decide)
      exact Bool.noConfusion (notVar.symm.trans binding.isVar)
    exact ⟨apart tagX, apart tagY⟩
  have ends : t.heap.Leads a e ∧ t.heap.Leads b e := by
    rcases sides with ⟨rfl, rfl⟩ | ⟨rfl, rfl⟩
    · exact ⟨binding.leads_bound ax, binding.leads bY binding.other⟩
    · exact ⟨binding.leads ax binding.other, binding.leads_bound bY⟩
  have headedE : s.heap.Headed e := by
    rcases sides with ⟨rfl, rfl⟩ | ⟨rfl, rfl⟩
    · exact bY.headed headedB joining.headed
    · exact ax.headed headedA joining.headed
  have turn {c d : Cell} (due : t.heap.Due opened ((a, b) :: work) c d) :
      t.heap.Due opened work c d :=
    due.turn ⟨e, e, ends.1, ends.2, .inl rfl⟩ (fun _ _ => id) fun _ => id
  refine ⟨fun o c found => ?_, fun o c found => ?_, fun p member => ?_,
    turn (joining.due.bind binding values), fun x y old => ?_⟩
  · rw [binding.get?] at found
    split at found
    · obtain rfl := Option.some.inj found
      exact ⟨e, binding.leads binding.ended binding.other⟩
    · obtain ⟨z, cz⟩ := joining.ends o c found
      exact binding.exists_leads cz
  · rw [binding.get?] at found
    split at found
    · obtain rfl := Option.some.inj found
      exact headedE.bind binding
    · exact (joining.headed o c found).bind binding
  · obtain ⟨first, second⟩ := joining.pairs p (.tail _ member)
    exact ⟨first.bind binding, second.bind binding⟩
  · exact ((joining.opens x y old).bind binding values joining.ends).imp fun _ _ => turn

/-- Structures with equal headers are joined; their elements are joined or queued. -/
theorem Joining.structures {c : Cell} (joining : Joining goal head opened ((a, b) :: work) s)
    (ax : s.heap.Leads a x) (bY : s.heap.Leads b y) (tagX : x.tag = .structRef)
    (tagY : y.tag = .structRef) (atX : s.heap.get? x.addr = some c)
    (atY : s.heap.get? y.addr = some c)
    (pushed : pushElements s.heap x.addr y.addr c.addr work = .ok queued) :
    Joining goal head (fun m n => opened m n ∨ m = x ∧ n = y) queued s := by
  obtain ⟨kept, elements, origin⟩ := pushElements_spec pushed
  have turn {m n : Cell} (due : s.heap.Due opened ((a, b) :: work) m n) :
      s.heap.Due (fun m n => opened m n ∨ m = x ∧ n = y) queued m n :=
    due.turn ⟨x, y, ax, bY, .inr (.inr ⟨rfl, rfl⟩)⟩ (fun _ _ => .inl) kept
  refine ⟨joining.ends, joining.headed, fun p member => ?_, turn joining.due,
    fun m n old => ?_⟩
  · rcases origin p member with old | ⟨i, -, foundX, foundY⟩
    · exact joining.pairs p (.tail _ old)
    · exact ⟨joining.headed _ _ foundX, joining.headed _ _ foundY⟩
  · rcases old with old | ⟨rfl, rfl⟩
    · exact (joining.opens m n old).imp fun _ _ => turn
    · have value := ax.headed (joining.pairs (a, b) (.head _)).1 joining.headed tagX c atX
      refine ⟨tagX, tagY, c, atX, atY, value, fun i inside => ?_⟩
      obtain ⟨d, e, foundX, foundY, same | member⟩ := elements i inside
      · obtain ⟨z, dz⟩ := joining.ends _ _ foundX
        exact ⟨d, e, foundX, foundY, .inl ⟨z, z, dz, same ▸ dz, .inl rfl⟩⟩
      · obtain ⟨z, dz⟩ := joining.ends _ _ foundX
        obtain ⟨z', ez⟩ := joining.ends _ _ foundY
        exact ⟨d, e, foundX, foundY, .inr ⟨(d, e), member, .refl dz, .refl ez⟩⟩

theorem Joining.turn (joining : Joining goal head opened ((a, b) :: work) s)
    (ax : s.heap.Leads a x) (bY : s.heap.Leads b y)
    (met : Met boundary s work x y (some (queued, t))) :
    ∃ opened', Joining goal head opened' queued t := by
  cases met with
  | same equal =>
    subst equal
    exact ⟨opened, joining.same ax bY⟩
  | bound other sides isVar _ binding =>
    exact ⟨opened, joining.bound ax bY sides (binding_of_bound ax bY other sides isVar binding)⟩
  | opened _ tagX tagY atX atY pushed =>
    exact ⟨_, joining.structures ax bY tagX tagY atX atY pushed⟩

/-- With nothing left to do, the joined cells denote the same trees. -/
theorem Joining.sameTree (joining : Joining goal head opened [] s) :
    s.heap.SameTree goal head := by
  have joined {c d : Cell} (due : s.heap.Due opened [] c d) : s.heap.Joined opened c d := by
    rcases due with joined | ⟨p, member, -⟩
    · exact joined
    · cases member
  refine ⟨s.heap.Joined opened, joined joining.due, fun c d related => ?_⟩
  obtain ⟨x, y, cx, dy, same | old⟩ := related
  · exact ⟨x, y, Heap.deref_eq_ok.mpr cx, Heap.deref_eq_ok.mpr dy, .inl same⟩
  · obtain ⟨tagX, tagY, header, atX, atY, -, elements⟩ := joining.opens x y old
    refine ⟨x, y, Heap.deref_eq_ok.mpr cx, Heap.deref_eq_ok.mpr dy,
      .inr ⟨tagX, tagY, header, atX, atY, fun i inside => ?_⟩⟩
    obtain ⟨d, e, foundX, foundY, due⟩ := elements i inside
    exact ⟨d, e, foundX, foundY, joined due⟩

/-- Cells that unify denote the same tree on the heap the unification leaves, cyclic or
not. A reference to a variable heads no structure, so the two cells may be any others;
the cells on a sound heap are (`Heap.Sound.headed`). -/
theorem sameTree_of_unify (sound : s.heap.Sound) (headedGoal : s.heap.Headed goal)
    (headedHead : s.heap.Headed head)
    (unified : s.unify fuel boundary goal head = .ok (true, t)) :
    t.heap.SameTree goal head := by
  have leads : ∃ x y, s.heap.Leads goal x ∧ s.heap.Leads head y := by
    cases fuel with
    | zero => cases unified
    | succ fuel =>
      obtain ⟨o, turned, -⟩ := Halt.bind_eq_ok.mp ((unifyAll_cons ..).symm.trans unified)
      obtain ⟨x, y, ax, bY, -⟩ := Met.of_unifyTurn turned
      exact ⟨x, y, ax, bY⟩
  obtain ⟨x, y, ax, bY⟩ := leads
  have start : Joining goal head (fun _ _ => False) [(goal, head)] s := by
    refine ⟨fun a c found => ?_, fun _ _ => sound.headed, fun p member => ?_, ?_, nofun⟩
    · obtain ⟨x, ended⟩ := sound.ends a c found
      exact ⟨x, .of_deref ended⟩
    · obtain rfl := List.mem_singleton.mp member
      exact ⟨headedGoal, headedHead⟩
    · exact .inr ⟨_, List.mem_singleton_self _, .refl ax, .refl bY⟩
  obtain ⟨left, ⟨opened, joining⟩, done⟩ := unifyAll_keeps
    (I := fun work u => ∃ opened, Joining goal head opened work u)
    (fun kept ax bY met => kept.choose_spec.turn ax bY met) ⟨_, start⟩ unified
  rw [done rfl] at joining
  exact joining.sameTree

/-- The goal `f(X, X)` and the head `f(g(X), g(g(X)))`: the first elements tie `X` into
itself, and the second ones are then different structures for one infinite tree. -/
def tying : Store where
  heap := ⟨#[.header 3, .constant 0, .var 2, .varRef 2,
    .header 3, .constant 0, .structRef 8, .structRef 11,
    .header 2, .constant 1, .varRef 2,
    .header 2, .constant 1, .structRef 14,
    .header 2, .constant 1, .varRef 2], by decide⟩
  trail := {}

theorem sameTree_of_unify_tying :
    tying.heap.Sound ∧ tying.heap.Headed (.structRef 0) ∧ tying.heap.Headed (.structRef 4) ∧
    ∃ t, tying.unify 9 2 (.structRef 0) (.structRef 4) = .ok (true, t) ∧
      t.heap.get? 2 = some (.structRef 8) ∧ t.heap.SameTree (.structRef 0) (.structRef 4) := by
  have sound : tying.heap.Sound := by decide +kernel
  have goal : tying.heap.Headed (.structRef 0) := by decide +kernel
  have head : tying.heap.Headed (.structRef 4) := by decide +kernel
  have unifies : (tying.unify 9 2 (.structRef 0) (.structRef 4)).toOption.any (fun r =>
      decide (r.1 = true ∧ r.2.heap.get? 2 = some (.structRef 8))) = true := by
    decide +kernel
  obtain ⟨⟨unified, t⟩, returned, check⟩ := exists_ok_of_any unifies
  obtain ⟨rfl, tied⟩ := of_decide_eq_true check
  exact ⟨sound, goal, head, t, returned, tied, sameTree_of_unify sound goal head returned⟩

end Store

end HornMachine
