import HornMachine.Proofs.AcceptedCode
import HornMachine.Proofs.KeyFilter

/-!
# The key filter on any sound heap

The filter is safe wherever variable chains end and references lead to complete
structures, closed region or not: what the keys were read off settles, so no binding
made before a pair is reached can undo the difference.

The keys of a clause are older. They were read off its template when it was loaded,
and are compared with those of a goal on a later heap, where variables of the template
may have been bound; the head is then a copy of the template as it is there. A key
that is no wildcard was found at the end of a chain without an unbound variable on it,
and of such a chain every cell is still in the template, and in the copy.
-/
namespace HornMachine

namespace Heap

/-- No unification of the two cells succeeds, whatever was logged before and however
long it may take. -/
def Apart (h : Heap) (goal head : Cell) : Prop :=
  ∀ trail fuel boundary t, Store.unify ⟨h, trail⟩ fuel boundary goal head ≠ .ok (true, t)

/-- From `lo` on `k` has the cells of `h`, except for what was an unbound variable. -/
def Retains (lo : Nat) (h k : Heap) : Prop :=
  ∀ a c, lo ≤ a → h.get? a = some c →
    ∃ d, k.get? a = some d ∧ (d = c ∨ c.isVar = true ∧ c.addr = a)

instance (lo : Nat) (h k : Heap) : Decidable (Retains lo h k) :=
  decidable_of_iff (∀ a ∈ List.range h.top, lo ≤ a → ∀ c ∈ h.get? a,
      (k.get? a).any (fun d => decide (d = c ∨ c.isVar = true ∧ c.addr = a)) = true)
    ⟨fun all a c low found => by
      have kept := all a (List.mem_range.mpr (lt_top_of_get? found)) low c found
      obtain ⟨d, there, same⟩ := (Option.any_eq_true _ _).mp kept
      exact ⟨d, there, of_decide_eq_true same⟩,
    fun retains a _ low c found => by
      obtain ⟨d, there, same⟩ := retains a c low found
      rw [there]
      exact decide_eq_true same⟩

variable {h : Heap} {c goal head ref : Cell} {a positions : Nat} {l : Key} {keys keys' : Keys}

theorem Complete.exists_arity (complete : h.Complete c.addr) :
    ∃ n, h.get? c.addr = some (.header n) ∧ (Cell.header n).addr = n ∧ h.arity c = some n ∧
      c.addr + n < h.top := by
  obtain ⟨n, header, inside⟩ := complete
  have limit := h.top_lt
  exact ⟨n, header, Cell.addr_header (by omega), arity_of_header header (by omega), inside⟩

namespace Sound

theorem fixed (sound : h.Sound) (made : Keys.keyAt h a = .ok l) (known : l ≠ .any) :
    Keys.Fixed h a l :=
  .of_keyAt made known fun _ _ found leads =>
    leads.headed (sound.headed found) fun _ _ => sound.headed

theorem exists_keyAt (sound : h.Sound) (inside : a < h.top) : ∃ l, Keys.keyAt h a = .ok l := by
  obtain ⟨c, found⟩ := exists_get? inside
  obtain ⟨x, ended⟩ := sound.ends a c found
  have complete : x.tag = .structRef → h.Complete x.addr :=
    (Leads.of_deref ended).holds (P := fun x => x.tag = .structRef → h.Complete x.addr)
      (sound.refs a c found) sound.refs
  have target : x.tag = .structRef → ∃ d, h.get? x.addr = some d := by
    intro tag
    obtain ⟨n, header, -⟩ := complete tag
    exact ⟨_, header⟩
  obtain ⟨l, made⟩ := Key.exists_ofCell target
  exact ⟨l, Keys.keyAt_eq_ok.mpr ⟨c, x, found, ended, made⟩⟩

theorem exists_ofRef (sound : h.Sound) (complete : h.Complete ref.addr) (positions : Nat) :
    ∃ keys, Keys.ofRef h ref positions = .ok keys := by
  obtain ⟨n, -, -, arity, inside⟩ := complete.exists_arity
  exact Keys.exists_ofRef_of_arity arity (fun i short => sound.exists_keyAt (by omega)) positions

theorem apart (sound : h.Sound) (tagGoal : goal.tag = .structRef)
    (completeGoal : h.Complete goal.addr) (tagHead : head.tag = .structRef)
    (completeHead : h.Complete head.addr) (goalKeys : Keys.ofRef h goal positions = .ok keys)
    (headKeys : Keys.ofRef h head positions = .ok keys') (refused : keys.admits keys' = false) :
    h.Apart goal head := by
  obtain ⟨n, header, count, arity, -⟩ := completeGoal.exists_arity
  obtain ⟨n', -, -, arity', -⟩ := completeHead.exists_arity
  obtain ⟨i, l, m, inside, -, left, right, differ⟩ :=
    Keys.exists_refused arity arity' goalKeys headKeys refused
  intro trail fuel boundary t
  exact Store.not_unifies_at tagGoal tagHead header (by omega)
    (sound.fixed left (Key.known_left differ))
    (fun _ _ => sound.fixed right (Key.known_right differ)) differ

end Sound

end Heap

namespace ClauseCode

/-- `load` has the code on top of `before`, `h` retains it there, and `k` has a copy of
its first `n` cells on top of `h`. -/
structure Recopied (code : ClauseCode) (n : Nat) (before load h k : Heap) : Prop where
  accepted : code.Accepted
  stored : code.Copied code.size before load
  retained : Heap.Retains before.top load h
  part : n = code.headLen ∨ n = code.size
  copied : h.copyRelocated (h.top - before.top) before.top n = .ok k

namespace Recopied

variable {code : ClauseCode} {n a : Nat} {before load h k : Heap} {c ref x : Cell} {m : Key}

theorem le_size (copy : code.Recopied n before load h k) : n ≤ code.size :=
  copy.accepted.part_le copy.part

theorem lt_top (copy : code.Recopied n before load h k) (inside : a < code.size) :
    before.top + a < h.top := by
  have found := copy.stored.get? (Array.getElem?_eq_getElem inside) inside
  obtain ⟨d, there, -⟩ := copy.retained _ _ (Nat.le_add_right _ _) found
  exact Heap.lt_top_of_get? there

theorem append (copy : code.Recopied n before load h k) :
    k.toList = h.toList ++
      (h.span before.top n).map (·.relocate (h.top - before.top)) := by
  have short := copy.le_size
  have last := copy.lt_top (Nat.sub_one_lt_of_lt copy.accepted.size_pos)
  exact (Heap.copyRelocated_eq_ok (by omega)).mp copy.copied

theorem top (copy : code.Recopied n before load h k) : k.top = h.top + n := by
  have short := copy.le_size
  have last := copy.lt_top (Nat.sub_one_lt_of_lt copy.accepted.size_pos)
  rw [Heap.top_append copy.append, List.length_map, Heap.length_span (by omega)]

theorem get? (copy : code.Recopied n before load h k) (found : code.cells[a]? = some c)
    (inside : a < n) (bound : c.isVar = true → c.addr ≠ a) :
    k.get? (h.top + a) = some (c.relocate h.top) := by
  have short := inside.trans_le copy.le_size
  have below := copy.lt_top copy.accepted.size_pos
  obtain ⟨d, there, same⟩ :=
    copy.retained _ _ (Nat.le_add_right _ _) (copy.stored.get? found short)
  have kept : d = c.relocate before.top := by
    refine same.resolve_right fun ⟨isVar, root⟩ => ?_
    obtain ⟨isVar, -, -, moved, -⟩ := copy.accepted.exists_next copy.stored found isVar
    exact bound isVar (by omega)
  rw [Heap.get?_append copy.append, if_neg (by omega), Nat.add_sub_cancel_left,
    List.getElem?_map, Heap.getElem?_span inside, there, kept, Option.map_some,
    Cell.relocate_relocate, Nat.add_sub_cancel' (by omega)]

theorem addr (copy : code.Recopied n before load h k) (inside : c.addr < n)
    (ref : c.isInternalRef = true) : (c.relocate h.top).addr = h.top + c.addr := by
  have limit := k.top_lt
  have top := copy.top
  rw [Cell.addr_relocate ref (by omega), Nat.add_comm]

/-- A chain that ends at a value starts with no unbound variable. -/
theorem bound (copy : code.Recopied n before load h k) (value : x.isVar = false)
    (leads : load.Leads (c.relocate before.top) x) (found : code.cells[a]? = some c)
    (isVar : c.isVar = true) : c.addr ≠ a := by
  rintro rfl
  rw [← Cell.isVar_relocate c before.top] at isVar
  obtain ⟨-, d, target, -, landed⟩ := copy.accepted.exists_next copy.stored found isVar
  obtain rfl := Option.some.inj (found.symm.trans target)
  rw [leads.unique (.root isVar landed), isVar] at value
  cases value

/-- A chain of the template that ends at a value is a chain of the copy too. -/
theorem leads (copy : code.Recopied n before load h k) (value : x.isVar = false)
    (leads : load.Leads (c.relocate before.top) x) (found : code.cells[a]? = some c)
    (inside : a < n) :
    ∃ b d, code.cells[b]? = some d ∧ b < n ∧ x = d.relocate before.top ∧
      k.Leads (c.relocate h.top) (d.relocate h.top) := by
  generalize start : c.relocate before.top = e at leads
  induction leads generalizing a c with
  | value notVar =>
    subst start
    rw [Cell.isVar_relocate] at notVar
    exact ⟨a, c, found, inside, rfl, .value (by rwa [Cell.isVar_relocate])⟩
  | root isVar _ => exact Bool.noConfusion (value.symm.trans isVar)
  | @step e next x isVar at' other rest ih =>
    subst start
    obtain ⟨isVar, d, target, -, landed⟩ := copy.accepted.exists_next copy.stored found isVar
    obtain rfl := Option.some.inj (landed.symm.trans at')
    have ref := Cell.isInternalRef_iff.mpr (.inl isVar)
    have within := copy.accepted.addr_lt copy.part inside found ref
    have apart : d.relocate h.top ≠ c.relocate h.top := fun same =>
      other (congrArg (·.relocate before.top) (Cell.relocate_inj same))
    obtain ⟨b, z, foundZ, insideZ, last, further⟩ := ih value target within rfl
    have there := copy.get? target within (copy.bound value rest target)
    rw [← copy.addr within ref] at there
    exact ⟨b, z, foundZ, insideZ, last, .step (by rwa [Cell.isVar_relocate]) there apart further⟩

/-- A reference of the code leads to the same header in the template and in the copy. -/
theorem exists_header (copy : code.Recopied n before load h k) (found : code.cells[a]? = some c)
    (inside : a < n) (tag : c.tag = .structRef) :
    ∃ d, load.get? (c.relocate before.top).addr = some d ∧
      k.get? (c.relocate h.top).addr = some d ∧ d.isVar = false := by
  have ref := Cell.isInternalRef_iff.mpr (.inr tag)
  have within := copy.accepted.addr_lt copy.part inside found ref
  obtain ⟨d, target, header⟩ :=
    isHeaderAt_iff.mp ((copy.accepted.cell a c found).header tag)
  have value := Cell.not_isVar_of_tag header (by decide) (by decide)
  have still (base : Nat) : d.relocate base = d := Cell.relocate_of_tag (.inr (.inr header)) base
  have stored := copy.stored.get? target (lt_size_of_getElem? target)
  have copied := copy.get? target within fun isVar => Bool.noConfusion (value.symm.trans isVar)
  rw [still] at stored copied
  refine ⟨d, ?_, ?_, value⟩
  · rwa [copy.stored.addr ref target (lt_size_of_getElem? target)]
  · rwa [copy.addr within ref]

/-- A key that is no wildcard is the key of the copied element too. -/
theorem fixed (copy : code.Recopied n before load h k)
    (made : Keys.keyAt load (before.top + a) = .ok m) (known : m ≠ .any) (inside : a < n) :
    Keys.Fixed k (h.top + a) m := by
  obtain ⟨c', x, found', ended, key⟩ := Keys.keyAt_eq_ok.mp made
  have value := Key.isVar_eq_false key known
  obtain ⟨c, -, found, rfl⟩ := copy.stored.of_get? (Nat.le_add_right _ _) found'
  rw [Nat.add_sub_cancel_left] at found
  have chain := Heap.Leads.of_deref ended
  obtain ⟨b, d, foundD, insideD, rfl, leads⟩ := copy.leads value chain found inside
  rw [Cell.isVar_relocate] at value
  refine ⟨_, _, copy.get? found inside (copy.bound (by rwa [Cell.isVar_relocate]) chain found),
    ⟨leads, by rwa [Cell.isVar_relocate], fun tag => ?_⟩, ?_⟩
  · rw [Cell.tag_relocate] at tag
    obtain ⟨e, -, header, notVar⟩ := copy.exists_header foundD insideD tag
    exact ⟨e, header, notVar⟩
  · cases tag : d.tag with
    | structRef =>
      obtain ⟨e, stored, copied, -⟩ := copy.exists_header foundD insideD tag
      obtain ⟨e', stored', rfl⟩ := Key.exists_header key (by rwa [Cell.tag_relocate])
      obtain rfl := Option.some.inj (stored.symm.trans stored')
      rw [Key.ofCell, Cell.tag_relocate, tag]
      exact Halt.bind_eq_ok.mpr ⟨e, Heap.target_eq_ok.mpr copied, rfl⟩
    | constant | number =>
      rw [Cell.relocate_of_tag (by simp [tag])] at key ⊢
      rw [Key.ofCell, tag] at key ⊢
      exact key
    | _ =>
      rw [Key.ofCell, Cell.tag_relocate, tag, Halt.pure_eq_ok] at key
      exact absurd key.symm known

/-- A goal whose keys are refused by those of the template is not unified with the head of
the copy. -/
theorem apart (copy : code.Recopied n before load h k) {goal : Cell} {positions : Nat}
    {keys keys' : Keys} (sound : h.Sound) (tag : goal.tag = .structRef)
    (complete : h.Complete goal.addr) (goalKeys : Keys.ofRef h goal positions = .ok keys)
    (member : ref ∈ code.goals) (inside : ref.addr < n)
    (headKeys : Keys.ofRef load (ref.relocate before.top) positions = .ok keys')
    (refused : keys.admits keys' = false) : k.Apart goal (ref.relocate h.top) := by
  obtain ⟨tagRef, header⟩ := copy.accepted.goal ref member
  obtain ⟨d, foundD, tagD⟩ := isHeaderAt_iff.mp header
  have internal := Cell.isInternalRef_iff.mpr (.inr tagRef)
  have moved := copy.stored.addr internal foundD (lt_size_of_getElem? foundD)
  obtain ⟨count, goalHeader, counted, arity, -⟩ := complete.exists_arity
  have arity' : load.arity (ref.relocate before.top) = some d.addr := by
    rw [Heap.arity, moved, copy.stored.get? foundD (lt_size_of_getElem? foundD),
      Cell.relocate_of_tag (.inr (.inr tagD))]
    exact if_pos tagD
  obtain ⟨i, l, m, short, -, left, right, differ⟩ :=
    Keys.exists_refused arity arity' goalKeys headKeys refused
  rw [moved, Nat.add_assoc, Nat.add_assoc] at right
  intro trail fuel boundary t
  refine Store.not_unifies_at tag (by rwa [Cell.tag_relocate])
    (Heap.get?_append_left copy.append goalHeader) (by omega)
    ((sound.fixed left (Key.known_left differ)).append copy.append) (fun e there => ?_) differ
  rw [copy.addr inside internal, Nat.add_assoc, Nat.add_assoc] at there ⊢
  have copied : h.top + (ref.addr + (1 + i)) < k.top := Heap.lt_top_of_get? there
  rw [copy.top, Nat.add_lt_add_iff_left] at copied
  exact copy.fixed right (Key.known_right differ) copied

end Recopied

end ClauseCode

/-- The keys of a goal never rule out a structure that it unifies with: neither another
structure on the heap, nor the head of a copy of a clause whose keys were taken when it
was stored. Of the clause the head alone may be copied, or all of it. -/
theorem Heap.Sound.keys_safe {h : Heap} {goal : Cell} (sound : h.Sound)
    (tag : goal.tag = .structRef) (complete : h.Complete goal.addr) (positions : Nat) :
    ∃ keys, Keys.ofRef h goal positions = .ok keys ∧
      (∀ head : Cell, head.tag = .structRef → h.Complete head.addr →
        ∃ keys', Keys.ofRef h head positions = .ok keys' ∧
          (keys.admits keys' = false → h.Apart goal head)) ∧
      ∀ (code : ClauseCode) (ref : Cell) (body : List Cell) (before load : Heap)
        (clause : Clause), code.validate = .ok () → code.goals = ref :: body →
        Clause.store before code ref body positions = .ok (clause, load) →
        Heap.Retains clause.base load h → keys.admits clause.keys = false →
        ∀ (n : Nat) (k : Heap), n = clause.headLen ∨ n = clause.len →
          h.copyRelocated (h.top - clause.base) clause.base n = .ok k →
          k.Apart goal (clause.head.relocate (h.top - clause.base)) := by
  obtain ⟨keys, made⟩ := sound.exists_ofRef complete positions
  refine ⟨keys, made, fun head tagHead completeHead => ?_, ?_⟩
  · obtain ⟨keys', made'⟩ := sound.exists_ofRef completeHead positions
    exact ⟨keys', made', sound.apart tag complete tagHead completeHead made made'⟩
  · intro code ref body before load clause valid goals stored retained refused n k part copied
    have accepted := ClauseCode.validate_eq_ok.mp valid
    obtain ⟨whole, keys', made', rfl⟩ := Clause.store_eq_ok.mp stored
    have copy : code.Recopied n before load h k := ⟨accepted, whole, retained, part, copied⟩
    have below := copy.lt_top accepted.size_pos
    have inside : ref.addr < n := by
      obtain ⟨head, body', goals', before⟩ := accepted.head
      rw [goals, List.cons.injEq] at goals'
      obtain ⟨rfl, -⟩ := goals'
      have := accepted.neck_le_headLen
      have := accepted.headLen_le
      rcases part with rfl | rfl <;> dsimp only <;> omega
    have apart := copy.apart sound tag complete made (goals ▸ List.mem_cons_self) inside made'
      refused
    dsimp only
    rwa [Cell.relocate_relocate, Nat.add_sub_cancel' (by omega)]

/-- The fact `p(X, b)`. -/
def keyedFact : ClauseCode :=
  ⟨#[.header 3, .constant 0, .var 2, .constant 1], [.structRef 0], 4⟩

/-- The goal `p(Y, c)`, behind which `p(X, b)` was stored and its variable was bound. -/
def keyedHeap : Heap := ⟨#[.header 3, .constant 0, .var 2, .constant 2,
  .header 3, .constant 0, .number 7, .constant 1], by decide⟩

theorem keys_safe_keyedHeap :
    keyedHeap.Sound ∧ keyedHeap.Apart (.structRef 0) (.structRef 4) ∧
    ∃ clause load k, Clause.store (keyedHeap.truncate 4) keyedFact (.structRef 0) [] 3 =
        .ok (clause, load) ∧
      clause.copyHead keyedHeap (keyedHeap.top - clause.base) = .ok (.structRef 8, k) ∧
      k.Apart (.structRef 0) (.structRef 8) := by
  have sound : keyedHeap.Sound := by decide +kernel
  have complete : keyedHeap.Complete (Cell.structRef 4).addr := by decide +kernel
  have checks : (Keys.ofRef keyedHeap (.structRef 0) 3).toOption.any (fun keys =>
      (Keys.ofRef keyedHeap (.structRef 4) 3).toOption.any fun keys' =>
      (Clause.store (keyedHeap.truncate 4) keyedFact (.structRef 0) [] 3).toOption.any fun r =>
      (r.1.copyHead keyedHeap (keyedHeap.top - r.1.base)).toOption.any fun copy =>
      decide (keys.admits keys' = false ∧ keys.admits r.1.keys = false ∧
        Heap.Retains r.1.base r.2 keyedHeap ∧ copy.1 = .structRef 8)) = true := by
    decide +kernel
  obtain ⟨keys, made, checks⟩ := exists_ok_of_any checks
  obtain ⟨keys', made', checks⟩ := exists_ok_of_any checks
  obtain ⟨⟨clause, load⟩, stored, checks⟩ := exists_ok_of_any checks
  obtain ⟨⟨copy, k⟩, copied, checks⟩ := exists_ok_of_any checks
  obtain ⟨refused, refused', retained, rfl⟩ := of_decide_eq_true checks
  obtain ⟨keys₁, made₁, heads, copies⟩ :=
    sound.keys_safe (Cell.tag_structRef 0) (by decide +kernel) 3
  obtain rfl := Except.ok.inj (made.symm.trans made₁)
  obtain ⟨keys₂, made₂, apart⟩ := heads _ (Cell.tag_structRef 4) complete
  obtain rfl := Except.ok.inj (made'.symm.trans made₂)
  obtain ⟨k', appended, same⟩ := Halt.bind_eq_ok.mp copied
  obtain ⟨head, rfl⟩ := Prod.mk.inj (Halt.pure_eq_ok.mp same)
  have distinct := copies keyedFact _ [] _ load clause (by decide +kernel) rfl stored retained
    refused' _ k' (.inl rfl) appended
  rw [head] at distinct
  exact ⟨sound, apart refused, clause, load, k', stored, copied, distinct⟩

end HornMachine
