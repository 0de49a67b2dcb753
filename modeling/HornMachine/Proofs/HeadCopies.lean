import HornMachine.Proofs.AcceptedCode
import HornMachine.Proofs.MostGeneral

/-!
# Copies of a head

A head is unified before the body of its clause is copied, so its copy has to stand
alone. The references of accepted code take care of that: a copied head refers to
itself. Its arrays do not. The end of an array is checked against the end of the
clause only, and an array of the head that reaches over the neck is copied in part
unless a reference reaches over it too. A negative count is read as a large one, which
wraps around to an offset inside the clause.

Where the arrays of the head end in its copy, unification never looks at an address
above the heap top. It needs no chains that end for that.
-/
namespace HornMachine

namespace Heap

/-- The heap refers to nothing outside itself. -/
def Contained (h : Heap) : Prop := ∀ a c, h.get? a = some c → h.Placed c

variable {h k : Heap} {c e v x : Cell}

theorem Placed.append {cs : List Cell} (placed : h.Placed c)
    (appended : k.toList = h.toList ++ cs) : k.Placed c := by
  have top := top_append appended
  refine ⟨fun isVar => ?_, fun tag => ?_⟩
  · have := placed.var isVar
    omega
  · obtain ⟨n, header, inside⟩ := placed.ref tag
    exact ⟨n, get?_append_left appended header, by omega⟩

theorem Placed.bind (placed : h.Placed c) (binding : h.Binding k v e) : k.Placed c := by
  refine ⟨fun isVar => binding.top ▸ placed.var isVar, fun tag => ?_⟩
  obtain ⟨n, header, inside⟩ := placed.ref tag
  exact ⟨n, binding.header header, binding.top ▸ inside⟩

theorem Contained.bind (contained : h.Contained) (binding : h.Binding k v e)
    (placed : h.Placed e) : k.Contained := by
  intro a c found
  rw [binding.get?] at found
  split at found
  · obtain rfl := Option.some.inj found
    exact placed.bind binding
  · exact (contained a c found).bind binding

theorem Contained.deref (contained : h.Contained) (placed : h.Placed c) :
    h.deref c ≠ .error .outOfRange := by
  have inside := deref_inside (P := h.Placed) placed fun c placed isVar => by
    obtain ⟨d, found⟩ := exists_get? (placed.var isVar)
    exact ⟨d, found, contained _ d found⟩
  rcases inside with ⟨x, ended⟩ | unfinished
  · rw [ended]
    exact Halt.ok_ne_error
  · rw [unfinished]
    simp

end Heap

/-! ### Unification inside the heap -/

namespace Store

/-- What is left to do lies inside the heap, and so does all it refers to. -/
structure Inside (work : List (Cell × Cell)) (s : Store) : Prop where
  contained : s.heap.Contained
  placed : ∀ p ∈ work, s.heap.Placed p.1 ∧ s.heap.Placed p.2

variable {s t : Store} {a b x y : Cell} {work queued : List (Cell × Cell)} {boundary : Nat}

theorem Inside.turn (inside : Inside ((a, b) :: work) s) (ax : s.heap.Leads a x)
    (bY : s.heap.Leads b y) (met : Met boundary s work x y (some (queued, t))) :
    Inside queued t := by
  obtain ⟨⟨placedA, placedB⟩, later⟩ := List.forall_mem_cons.mp inside.placed
  cases met with
  | same _ => exact ⟨inside.contained, later⟩
  | opened _ _ _ _ _ pushed =>
    refine ⟨inside.contained, fun p member => ?_⟩
    rcases (pushElements_spec pushed).2.2 p member with old | ⟨i, -, foundX, foundY⟩
    · exact later p old
    · exact ⟨inside.contained _ _ foundX, inside.contained _ _ foundY⟩
  | @bound v e _ other sides isVar _ bound =>
    have binding := binding_of_bound ax bY other sides isVar bound
    have placed : s.heap.Placed e := by
      rcases sides with ⟨rfl, rfl⟩ | ⟨rfl, rfl⟩
      · exact bY.holds placedB inside.contained
      · exact ax.holds placedA inside.contained
    exact ⟨inside.contained.bind binding placed, fun p member =>
      ⟨(later p member).1.bind binding, (later p member).2.bind binding⟩⟩

/-- A turn inside the heap reads and writes inside the heap. -/
theorem Inside.unifyTurn (inside : Inside ((a, b) :: work) s) (boundary : Nat) :
    unifyTurn boundary a b work s ≠ .error .outOfRange := by
  obtain ⟨placedA, placedB⟩ := inside.placed _ List.mem_cons_self
  refine Halt.ne_error_bind (inside.contained.deref placedA) fun x endA => ?_
  refine Halt.ne_error_bind (inside.contained.deref placedB) fun y endB => ?_
  have ax := Heap.Leads.of_deref endA
  have bY := Heap.Leads.of_deref endB
  obtain ⟨o, turned⟩ := exists_unifyTurn ax bY (ax.holds placedA inside.contained).ref
    (bY.holds placedB inside.contained).ref boundary work
  rw [Store.unifyTurn, endA, Halt.ok_bind, endB, Halt.ok_bind] at turned
  rw [turned]
  exact Halt.ok_ne_error

theorem Inside.unifyAll (inside : Inside work s) (boundary fuel : Nat) :
    unifyAll boundary fuel work s ≠ .error .outOfRange := by
  induction fuel generalizing work s with
  | zero => cases work <;> simp [Store.unifyAll]
  | succ fuel ih =>
    cases work with
    | nil => simp [Store.unifyAll]
    | cons p work =>
      obtain ⟨a, b⟩ := p
      rw [unifyAll_cons]
      refine Halt.ne_error_bind (inside.unifyTurn boundary) fun o turned => ?_
      obtain ⟨x, y, ax, bY, met⟩ := Met.of_unifyTurn turned
      cases o with
      | none => exact Halt.ok_ne_error
      | some next => exact ih (inside.turn ax bY met)

end Store

/-! ### Copied heads -/

namespace ClauseCode

/-- The arrays before offset `n` end there. -/
def Whole (code : ClauseCode) (n : Nat) : Prop :=
  ∀ (a : Nat) c, code.cells[a]? = some c → a < n → c.tag = .arrayHeader →
    0 ≤ c.payload ∧ (a : Int) + c.payload < n

instance (code : ClauseCode) (n : Nat) : Decidable (code.Whole n) :=
  decidable_of_iff (∀ a ∈ List.range n, ∀ c ∈ code.cells[a]?, c.tag = .arrayHeader →
      0 ≤ c.payload ∧ (a : Int) + c.payload < n)
    ⟨fun all a c found inside => all a (List.mem_range.mpr inside) c found,
      fun whole a inside c found => whole a c found (List.mem_range.mp inside)⟩

variable {code : ClauseCode} {n a : Nat} {h k load : Heap} {c ref : Cell}

/-- The header a reference of the code leads to, with the array behind it. -/
theorem Whole.complete (whole : code.Whole n) (le : n ≤ code.size)
    (copied : code.Copied n h k) (header : code.isHeaderAt ref.addr = true)
    (tag : ref.tag = .structRef) (inside : ref.addr < n) :
    k.Complete (ref.relocate h.top).addr := by
  obtain ⟨d, found, tagD⟩ := isHeaderAt_iff.mp header
  obtain ⟨count, ends⟩ := whole _ d found inside tagD
  obtain ⟨m, payload⟩ := Int.eq_ofNat_of_zero_le count
  have bound := d.payload_lt
  have same : d = .header m :=
    Cell.eq_make (by decide) tagD (Cell.addr_eq_of_payload payload) (by omega)
  have copiedHeader := copied.get? found inside
  rw [Cell.relocate_of_tag (.inr (.inr tagD)), same] at copiedHeader
  rw [copied.addr (Cell.isInternalRef_iff.mpr (.inr tag)) found inside]
  refine ⟨m, copiedHeader, ?_⟩
  rw [copied.top_of_le le]
  omega

/-- A copy whose arrays are whole refers to nothing outside the heap. -/
theorem Whole.contained (whole : code.Whole n) (accepted : code.Accepted)
    (part : n = code.headLen ∨ n = code.size) (copied : code.Copied n h k)
    (contained : h.Contained) : k.Contained := by
  have le := accepted.part_le part
  intro a c found
  by_cases old : a < h.top
  · rw [Heap.get?_append copied, if_pos old] at found
    exact (contained a c found).append copied
  obtain ⟨d, inside, source, rfl⟩ := copied.of_get? (by omega) found
  refine ⟨fun isVar => ?_, fun tag => ?_⟩
  · rw [Cell.isVar_relocate] at isVar
    have internal := Cell.isInternalRef_iff.mpr (.inl isVar)
    obtain ⟨e, target⟩ := accepted.exists_target source internal
    have within := accepted.addr_lt part inside source internal
    rw [copied.addr internal target within, copied.top_of_le le]
    omega
  · rw [Cell.tag_relocate] at tag
    have internal := Cell.isInternalRef_iff.mpr (.inr tag)
    exact whole.complete le copied ((accepted.cell _ d source).header tag) tag
      (accepted.addr_lt part inside source internal)

theorem Whole.unify (whole : code.Whole n) (accepted : code.Accepted)
    (part : n = code.headLen ∨ n = code.size) (copied : code.Copied n h k)
    (contained : h.Contained) (member : ref ∈ code.goals) (inside : ref.addr < n) {goal : Cell}
    (placed : h.Placed goal) (trail : Trail) (fuel boundary : Nat) :
    Store.unify ⟨k, trail⟩ fuel boundary goal (ref.relocate h.top) ≠ .error .outOfRange := by
  obtain ⟨tag, header⟩ := accepted.goal ref member
  have value := Cell.not_isVar_of_tag tag (by decide) (by decide)
  have placedHead : k.Placed (ref.relocate h.top) := by
    refine ⟨fun isVar => ?_, fun _ =>
      whole.complete (accepted.part_le part) copied header tag inside⟩
    rw [Cell.isVar_relocate, value] at isVar
    cases isVar
  refine Store.Inside.unifyAll ⟨whole.contained accepted part copied contained, ?_⟩ boundary fuel
  exact fun p member => List.mem_singleton.mp member ▸ ⟨placed.append copied, placedHead⟩

theorem Copied.of_template {before : Heap} (stored : code.Copied code.size before load)
    (intact : ∀ i, i < n → h.get? (before.top + i) = load.get? (before.top + i))
    (le : n ≤ code.size) (inside : before.top + n ≤ h.top) :
    code.Copied n h k ↔ h.copyRelocated (h.top - before.top) before.top n = .ok k := by
  have cells : (h.span (before.top + 0) n).map (·.relocate (h.top - before.top)) =
      ((code.cells.toList.drop 0).take n).map
        (·.relocate (before.top + (h.top - before.top))) :=
    stored.map_span (fun i _ short => intact i (by omega)) (by omega) (by omega) _
  rw [Nat.add_zero, List.drop_zero, Nat.add_sub_cancel' (by omega)] at cells
  rw [Heap.copyRelocated_eq_ok inside, cells, Copied]

/-- An accepted array ends inside the head copy exactly if it ends before the neck, or the
whole clause is copied. -/
theorem Accepted.array_in_head {a : Nat} {c : Cell} (accepted : code.Accepted)
    (small : code.size < 2 ^ 60) (found : code.cells[a]? = some c) (tag : c.tag = .arrayHeader) :
    0 ≤ c.payload ∧ (a : Int) + c.payload < code.headLen ↔
      0 ≤ c.payload ∧
        (code.headReachesBody = true ∨ (a : Int) + c.payload < code.neck) := by
  have ends := (accepted.cell a c found).array tag
  refine and_congr_right fun count => ?_
  obtain ⟨n, payload⟩ := Int.eq_ofNat_of_zero_le count
  have bound := c.payload_lt
  have whole := lt_size_of_getElem? found
  rw [Cell.addr_eq_of_payload payload, Nat.mod_eq_of_lt (by omega)] at ends
  unfold headLen
  split
  · next reaches =>
    simp only [reaches, true_or, iff_true]
    omega
  · next apart => simp only [apart, Bool.false_eq_true, false_or]

theorem Accepted.head_le_top {before load : Heap} (accepted : code.Accepted)
    (template : code.Copied code.size before load)
    (intact : ∀ i, i < code.headLen → h.get? (before.top + i) = load.get? (before.top + i)) :
    before.top + code.headLen ≤ h.top := by
  obtain ⟨first, rest, -, inNeck⟩ := accepted.head
  have positive := inNeck.trans_le accepted.neck_le_headLen
  have whole := accepted.headLen_le
  obtain ⟨c, found⟩ : ∃ c, code.cells[code.headLen - 1]? = some c :=
    ⟨_, Array.getElem?_eq_getElem (by unfold size at whole; omega)⟩
  have last := template.get? found (lt_size_of_getElem? found)
  rw [← intact _ (by omega)] at last
  have := Heap.lt_top_of_get? last
  omega

/-- The references of an accepted head stay inside its copy. An array of it does exactly if
its count is not negative and it ends before the neck, or some reference reaches over the
neck, so that the whole clause is copied. If all of them do, a template that is as it was
stored is copied and the copy is unified with any goal without looking outside the
heap. -/
theorem head_selfContained (valid : code.validate = .ok ()) (small : code.size < 2 ^ 60) :
    (∀ (a : Nat) c, code.cells[a]? = some c → a < code.headLen →
      (c.isInternalRef = true → c.addr < code.headLen) ∧
      (c.tag = .arrayHeader →
        (0 ≤ c.payload ∧ (a : Int) + c.payload < code.headLen ↔
          0 ≤ c.payload ∧
            (code.headReachesBody = true ∨ (a : Int) + c.payload < code.neck)))) ∧
    (code.Whole code.headLen →
      ∀ (ref : Cell) (body : List Cell) (before load h : Heap) (positions : Nat)
        (clause : Clause), code.goals = ref :: body →
        Clause.store before code ref body positions = .ok (clause, load) →
        (∀ i, i < clause.headLen → h.get? (clause.base + i) = load.get? (clause.base + i)) →
        h.Contained →
        clause.copyHead h (h.top - clause.base) ≠ .error .outOfRange ∧
        ∀ (head : Cell) (k : Heap), clause.copyHead h (h.top - clause.base) = .ok (head, k) →
          ∀ (goal : Cell), h.Placed goal → ∀ (trail : Trail) (fuel boundary : Nat),
            Store.unify ⟨k, trail⟩ fuel boundary goal head ≠ .error .outOfRange) := by
  have accepted := validate_eq_ok.mp valid
  refine ⟨fun a c found inside => ⟨accepted.addr_lt (.inl rfl) inside found,
    accepted.array_in_head small found⟩, ?_⟩
  intro whole ref body before load h positions clause goals stored intact contained
  obtain ⟨template, keys, -, rfl⟩ := Clause.store_eq_ok.mp stored
  dsimp only at intact ⊢
  obtain ⟨first, rest, goals', inNeck⟩ := accepted.head
  obtain ⟨rfl, -⟩ := List.cons.inj (goals.symm.trans goals')
  have inHead : ref.addr < code.headLen := inNeck.trans_le accepted.neck_le_headLen
  have inside := accepted.head_le_top template intact
  have fits := Heap.copyRelocated_fits inside (h.top - before.top)
  refine ⟨fun failed => ?_, fun head k copied goal placed trail fuel _ => ?_⟩
  · rcases fits with ⟨k, copied⟩ | full
    · rw [Clause.copyHead, copied] at failed
      cases failed
    · rw [Clause.copyHead, full] at failed
      cases failed
  obtain ⟨k', appended, same⟩ := Halt.bind_eq_ok.mp copied
  obtain ⟨rfl, rfl⟩ := Prod.mk.inj (Halt.pure_eq_ok.mp same)
  have copied := (template.of_template intact accepted.headLen_le inside).mpr appended
  dsimp only
  rw [Cell.relocate_relocate, Nat.add_sub_cancel' (by omega)]
  exact whole.unify accepted (.inl rfl) copied contained (goals ▸ List.mem_cons_self) inHead
    placed trail fuel _

/-- The rule `p(b) if go`, whose neck may be said to lie elsewhere. -/
def splitRule (neck : Nat) : ClauseCode :=
  ⟨#[.header 2, .constant 0, .constant 1, .header 1, .constant 2],
    [.structRef 0, .structRef 3], neck⟩

/-- The goal `p(X)`. -/
def askedGoal : Heap := ⟨#[.header 2, .constant 0, .var 2], by decide⟩

theorem head_selfContained_splitRule :
    (splitRule 3).validate = .ok () ∧ (splitRule 3).size < 2 ^ 60 ∧
    ∃ clause load k,
      Clause.store askedGoal (splitRule 3) (.structRef 0) [.structRef 3] 3 = .ok (clause, load) ∧
      clause.copyHead load (load.top - clause.base) = .ok (.structRef 8, k) ∧
      ∀ trail fuel boundary, Store.unify ⟨k, trail⟩ fuel boundary (.structRef 0) (.structRef 8) ≠
        .error .outOfRange := by
  have valid : (splitRule 3).validate = .ok () := by decide +kernel
  have small : (splitRule 3).size < 2 ^ 60 := by decide
  have checks : (Clause.store askedGoal (splitRule 3) (.structRef 0) [.structRef 3] 3).toOption.any
      (fun r => (r.1.copyHead r.2 (r.2.top - r.1.base)).toOption.any fun copy =>
      decide (r.2.WellFormed ∧ r.2.Placed (.structRef 0) ∧ copy.1 = .structRef 8)) = true := by
    decide +kernel
  obtain ⟨⟨clause, load⟩, stored, checks⟩ := exists_ok_of_any checks
  obtain ⟨⟨head, k⟩, copied, checks⟩ := exists_ok_of_any checks
  obtain ⟨wellFormed, placed, rfl⟩ := of_decide_eq_true checks
  have whole : (splitRule 3).Whole (splitRule 3).headLen := by decide +kernel
  have inside := (head_selfContained valid small).2 whole _ _ _ load load 3 clause rfl stored
    (fun _ _ => rfl) fun _ _ => wellFormed.placed
  exact ⟨valid, small, clause, load, k, stored, copied, inside.2 _ k copied _ placed⟩

/-- Of the rule with its neck inside the head, a part of the head is copied, and the goal is
unified with what is not there. -/
theorem head_not_selfContained_splitRule :
    (splitRule 2).validate = .ok () ∧ ¬ (splitRule 2).Whole (splitRule 2).headLen ∧
    ∃ clause load k,
      Clause.store askedGoal (splitRule 2) (.structRef 0) [.structRef 3] 3 = .ok (clause, load) ∧
      clause.copyHead load (load.top - clause.base) = .ok (.structRef 8, k) ∧
      Store.unify ⟨k, {}⟩ 1 load.top (.structRef 0) (.structRef 8) = .error .outOfRange := by
  have valid : (splitRule 2).validate = .ok () := by decide +kernel
  have checks : (Clause.store askedGoal (splitRule 2) (.structRef 0) [.structRef 3] 3).toOption.any
      (fun r => (r.1.copyHead r.2 (r.2.top - r.1.base)).toOption.any fun copy =>
      decide (copy.1 = .structRef 8 ∧
        (Store.unify ⟨copy.2, {}⟩ 1 r.2.top (.structRef 0) (.structRef 8)).map (fun _ => ()) =
          .error .outOfRange)) = true := by
    decide +kernel
  obtain ⟨⟨clause, load⟩, stored, checks⟩ := exists_ok_of_any checks
  obtain ⟨⟨head, k⟩, copied, checks⟩ := exists_ok_of_any checks
  obtain ⟨rfl, failed⟩ := of_decide_eq_true checks
  exact ⟨valid, by decide +kernel, clause, load, k, stored, copied,
    Halt.eq_error_of_map failed⟩

end ClauseCode

end HornMachine
