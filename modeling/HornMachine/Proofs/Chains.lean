import HornMachine.Proofs.HeapView
import Mathlib.Data.List.Perm.Subperm

/-!
# Variable chains

A chain that ends visits no address twice: what lies at an address determines the
rest of the chain. So it is no longer than the heap, and dereferencing, which gives
up after that many steps, finds the end of every chain that has one.

Binding the variable at the end of a chain makes the chain longer by the one bound
to it, and leaves every other chain as it was.
-/
namespace HornMachine.Heap

variable {h k : Heap} {c d e next v x y : Cell} {as bs : List Nat}

/-- The chain from the first cell to the second, with the addresses it visits. -/
inductive Route (h : Heap) : Cell → List Nat → Cell → Prop
  | value {c : Cell} : c.isVar = false → Route h c [] c
  | root {c : Cell} : c.isVar = true → h.get? c.addr = some c → Route h c [] c
  | step {c next x : Cell} {as : List Nat} : c.isVar = true → h.get? c.addr = some next →
      next ≠ c → Route h next as x → Route h c (c.addr :: as) x

theorem Leads.exists_route (leads : h.Leads c x) : ∃ as, h.Route c as x := by
  induction leads with
  | value notVar => exact ⟨[], .value notVar⟩
  | root isVar found => exact ⟨[], .root isVar found⟩
  | step isVar found other _ ih =>
    obtain ⟨as, route⟩ := ih
    exact ⟨_, .step isVar found other route⟩

theorem Route.unique (first : h.Route c as x) (second : h.Route c bs y) : as = bs := by
  induction first generalizing bs with
  | value notVar =>
    cases second with
    | value _ => rfl
    | root isVar _ => simp [notVar] at isVar
    | step isVar _ _ _ => simp [notVar] at isVar
  | root isVar found =>
    cases second with
    | value _ => rfl
    | root _ _ => rfl
    | step _ found' other _ => exact absurd (Option.some.inj (found'.symm.trans found)) other
  | step isVar found other _ ih =>
    cases second with
    | value notVar => simp [notVar] at isVar
    | root _ found' => exact absurd (Option.some.inj (found.symm.trans found')) other
    | step _ found' _ rest =>
      obtain rfl := Option.some.inj (found.symm.trans found')
      rw [ih rest]

theorem Route.of_mem (route : h.Route c as x) {a : Nat} (member : a ∈ as)
    (found : h.get? a = some d) : ∃ bs, h.Route d bs x ∧ bs.length < as.length := by
  induction route with
  | value _ => cases member
  | root _ _ => cases member
  | @step c next x as _ found' _ rest ih =>
    rcases List.mem_cons.mp member with rfl | later
    · obtain rfl := Option.some.inj (found'.symm.trans found)
      exact ⟨as, rest, by simp⟩
    · obtain ⟨bs, tail, shorter⟩ := ih later
      exact ⟨bs, tail, by rw [List.length_cons]; omega⟩

theorem Route.nodup (route : h.Route c as x) : as.Nodup := by
  induction route with
  | value _ => exact List.nodup_nil
  | root _ _ => exact List.nodup_nil
  | step _ found _ rest ih =>
    refine List.nodup_cons.mpr ⟨fun again => ?_, ih⟩
    obtain ⟨bs, tail, shorter⟩ := rest.of_mem again found
    rw [rest.unique tail] at shorter
    exact Nat.lt_irrefl _ shorter

theorem Route.lt_top (route : h.Route c as x) : ∀ a ∈ as, a < h.top := by
  induction route with
  | value _ => exact nofun
  | root _ _ => exact nofun
  | step _ found _ _ ih => exact List.forall_mem_cons.mpr ⟨lt_top_of_get? found, ih⟩

theorem Route.length_le (route : h.Route c as x) : as.length ≤ h.top := by
  have inside : as ⊆ List.range h.top := fun a member =>
    List.mem_range.mpr (route.lt_top a member)
  simpa using (List.subperm_of_subset route.nodup inside).length_le

theorem derefWithin_of_end (ended : c.isVar = false ∨ h.get? c.addr = some c) (n : Nat) :
    h.derefWithin n c = .ok c := by
  unfold derefWithin
  rcases ended with notVar | root
  · simp [notVar]
  · split
    · rw [target_eq_ok.mpr root, Halt.ok_bind, if_pos rfl]
    · rfl

theorem Route.derefWithin (route : h.Route c as x) {steps : Nat} (enough : as.length ≤ steps) :
    h.derefWithin steps c = .ok x := by
  induction route generalizing steps with
  | value notVar => exact derefWithin_of_end (.inl notVar) _
  | root _ found => exact derefWithin_of_end (.inr found) _
  | step isVar found other _ ih =>
    obtain ⟨steps, rfl⟩ := Nat.exists_eq_add_of_le' (Nat.le_of_add_left_le enough)
    unfold Heap.derefWithin
    rw [if_pos isVar, target_eq_ok.mpr found, Halt.ok_bind, if_neg other]
    exact ih (Nat.le_of_succ_le_succ enough)

theorem deref_eq_ok : h.deref c = .ok x ↔ h.Leads c x := by
  constructor
  · exact .of_deref
  · intro leads
    obtain ⟨as, route⟩ := leads.exists_route
    exact route.derefWithin (Nat.le_succ_of_le route.length_le)

theorem Leads.holds {P : Cell → Prop} (leads : h.Leads c x) (start : P c)
    (all : ∀ a d, h.get? a = some d → P d) : P x := by
  induction leads with
  | value _ => exact start
  | root _ _ => exact start
  | step _ found _ _ ih => exact ih (all _ _ found)

theorem deref_of_root (isVar : c.isVar = true) (small : c.addr < 2 ^ 60)
    (root : h.get? c.addr = some (.var c.addr)) : h.deref c = .ok (.var c.addr) := by
  have ended : h.Leads (.var c.addr) (.var c.addr) :=
    .root (Cell.var_isVar _) (by rwa [Cell.addr_var small])
  rw [deref_eq_ok]
  by_cases same : Cell.var c.addr = c
  · rwa [same] at ended ⊢
  · exact .step isVar root same ended

theorem exists_leads_of_target (found : c.isVar = true → ∃ d x, h.get? c.addr = some d ∧
    h.Leads d x) : ∃ x, h.Leads c x := by
  cases isVar : c.isVar with
  | false => exact ⟨c, .value isVar⟩
  | true =>
    obtain ⟨d, x, at', leads⟩ := found isVar
    by_cases same : d = c
    · exact ⟨c, .root isVar (same ▸ at')⟩
    · exact ⟨x, .step isVar at' same leads⟩

theorem exists_leads_of_down {P : Cell → Prop} (start : P c)
    (down : ∀ c, P c → c.isVar = true → ∃ d, h.get? c.addr = some d ∧ P d ∧
      (d.isVar = true → d.addr ≤ c.addr)) : ∃ x, h.Leads c x := by
  induction address : c.addr using Nat.strong_induction_on generalizing c with
  | _ a ih =>
    refine exists_leads_of_target fun isVar => ?_
    obtain ⟨d, found, inner, lower⟩ := down c start isVar
    cases dVar : d.isVar with
    | false => exact ⟨d, d, found, .value dVar⟩
    | true =>
      by_cases same : d.addr = c.addr
      · exact ⟨d, d, found, .root dVar (same ▸ found)⟩
      · have := lower dVar
        obtain ⟨x, leads⟩ := ih d.addr (by omega) inner rfl
        exact ⟨d, x, found, leads⟩

/-- A chain may go on for ever, but it is not followed out of the heap if every variable
it can meet refers to a cell. -/
theorem deref_inside {P : Cell → Prop} (start : P c)
    (next : ∀ c, P c → c.isVar = true → ∃ d, h.get? c.addr = some d ∧ P d) :
    (∃ x, h.deref c = .ok x) ∨ h.deref c = .error .unfinished := by
  have within (steps : Nat) {c : Cell} (start : P c) :
      (∃ x, h.derefWithin steps c = .ok x) ∨ h.derefWithin steps c = .error .unfinished := by
    induction steps generalizing c with
    | zero =>
      unfold derefWithin
      split
      · next isVar =>
        obtain ⟨d, found, -⟩ := next c start isVar
        rw [target_eq_ok.mpr found, Halt.ok_bind]
        split
        · exact .inl ⟨c, rfl⟩
        · exact .inr rfl
      · exact .inl ⟨c, rfl⟩
    | succ steps ih =>
      unfold derefWithin
      split
      · next isVar =>
        obtain ⟨d, found, inner⟩ := next c start isVar
        rw [target_eq_ok.mpr found, Halt.ok_bind]
        split
        · exact .inl ⟨c, rfl⟩
        · exact ih inner
      · exact .inl ⟨c, rfl⟩
  exact within _ start

theorem Leads.append {cs : List Cell} (leads : h.Leads c x) (e : k.toList = h.toList ++ cs) :
    k.Leads c x := by
  induction leads with
  | value notVar => exact .value notVar
  | root isVar found => exact .root isVar (get?_append_left e found)
  | step isVar found other _ ih => exact .step isVar (get?_append_left e found) other ih

/-! ### Chains and bindings -/

/-- A chain that does not end at the variable that is bound does not pass it. -/
theorem Leads.write (leads : h.Leads c x) (written : h.write v.addr e = .ok k)
    (isVar : v.isVar = true) (root : h.get? v.addr = some v) (other : x ≠ v) :
    k.Leads c x := by
  induction leads with
  | value notVar => exact .value notVar
  | @root c cVar found =>
    refine .root cVar ?_
    rw [get?_write written, if_neg, found]
    intro same
    exact other (Option.some.inj (found.symm.trans (same ▸ root)))
  | @step c next x cVar found apart rest ih =>
    refine .step cVar ?_ apart (ih other)
    rw [get?_write written, if_neg, found]
    intro same
    obtain rfl : next = v := Option.some.inj (found.symm.trans (same ▸ root))
    exact other (rest.unique (.root isVar root))

/-- `k` is `h` with the unbound variable `v` bound to `e`, where a chain ends. -/
structure Binding (h k : Heap) (v e : Cell) : Prop where
  written : h.write v.addr e = .ok k
  isVar : v.isVar = true
  root : h.get? v.addr = some v
  ended : h.Leads e e
  other : e ≠ v

namespace Binding

variable (binding : h.Binding k v e)

include binding

theorem get? (a : Nat) : k.get? a = if a = v.addr then some e else h.get? a :=
  get?_write binding.written a

theorem leads (leads : h.Leads c x) (other : x ≠ v) : k.Leads c x :=
  leads.write binding.written binding.isVar binding.root other

/-- A chain that ends at the variable that is bound goes on to what it is bound to. -/
theorem leads_bound (leads : h.Leads c v) : k.Leads c e := by
  have final : k.Leads e e := binding.leads binding.ended binding.other
  have bound : k.get? v.addr = some e := by rw [binding.get?, if_pos rfl]
  generalize last : v = x at leads
  induction leads with
  | value notVar => simp [← last, binding.isVar] at notVar
  | root _ _ =>
    subst last
    exact .step binding.isVar bound binding.other final
  | @step c next x cVar found apart rest ih =>
    by_cases same : c.addr = v.addr
    · refine .step cVar (same ▸ bound) ?_ final
      rintro rfl
      exact apart (Option.some.inj (found.symm.trans (binding.ended.root_of_isVar cVar)))
    · exact .step cVar (by rw [binding.get?, if_neg same, found]) apart (ih last)

theorem exists_leads (leads : h.Leads c x) : ∃ y, k.Leads c y := by
  by_cases same : x = v
  · exact ⟨e, binding.leads_bound (same ▸ leads)⟩
  · exact ⟨x, binding.leads leads same⟩

theorem get?_of_value {a : Nat} (found : h.get? a = some c) (notVar : c.isVar = false) :
    k.get? a = some c := by
  rw [binding.get?, if_neg, found]
  rintro rfl
  obtain rfl := Option.some.inj (found.symm.trans binding.root)
  exact Bool.noConfusion (notVar.symm.trans binding.isVar)

end Binding

end HornMachine.Heap
