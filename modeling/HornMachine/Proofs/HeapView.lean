import HornMachine.Proofs.CellCode
import HornMachine.Trail

/-!
# Heaps as lists of cells

Every heap operation is described by its effect on the list of cells. An
operation that appends succeeds exactly when there is a heap with the longer
list, since the bound on the size is part of a heap. `Leads` is the relation
that dereferencing computes: it follows variables to a cell that is no variable,
or to one that points at itself.
-/
namespace HornMachine

theorem Halt.bind_eq_ok {α β : Type} {x : Except Halt α} {f : α → Except Halt β} {r : β} :
    (x >>= f) = .ok r ↔ ∃ a, x = .ok a ∧ f a = .ok r := by
  cases x with
  | error e => simp [bind, Except.bind]
  | ok a => simp [bind, Except.bind]

theorem Halt.bind_eq_error {α β : Type} {x : Except Halt α} {f : α → Except Halt β} {e : Halt} :
    (x >>= f) = .error e ↔ x = .error e ∨ ∃ a, x = .ok a ∧ f a = .error e := by
  cases x with
  | error e => simp [bind, Except.bind]
  | ok a => simp [bind, Except.bind]

theorem Halt.ne_error_bind {α β : Type} {x : Except Halt α} {f : α → Except Halt β} {e : Halt}
    (first : x ≠ .error e) (later : ∀ a, x = .ok a → f a ≠ .error e) : (x >>= f) ≠ .error e := by
  rw [ne_eq, Halt.bind_eq_error]
  rintro (failed | ⟨a, returned, failed⟩)
  · exact first failed
  · exact later a returned failed

theorem Halt.ok_bind {α β : Type} (a : α) (f : α → Except Halt β) :
    ((.ok a : Except Halt α) >>= f) = f a := rfl

theorem Halt.unique_of_mono {α : Type} {f : Nat → Except Halt α}
    (mono : ∀ {fuel more : Nat} {x : α}, fuel ≤ more → f fuel = .ok x → f more = .ok x)
    {fuel fuel' : Nat} {x y : α} (e : f fuel = .ok x) (e' : f fuel' = .ok y) : x = y :=
  Except.ok.inj ((mono (Nat.le_max_left fuel fuel') e).symm.trans
    (mono (Nat.le_max_right fuel fuel') e'))

theorem Halt.pure_eq_ok {α : Type} {a r : α} :
    (pure a : Except Halt α) = .ok r ↔ a = r := by
  simp [pure, Except.pure]

theorem Halt.ok_ne_error {α : Type} {a : α} {e : Halt} : (.ok a : Except Halt α) ≠ .error e := by
  simp

theorem Halt.eq_error_of_map {α β : Type} {x : Except Halt α} {f : α → β} {e : Halt}
    (failed : x.map f = .error e) : x = .error e := by
  cases x with
  | error e' =>
    cases failed
    rfl
  | ok a => cases failed

/-- The computation returns, unless the heap is full. -/
def Halt.Fits {α : Type} (x : Except Halt α) : Prop := (∃ a, x = .ok a) ∨ x = .error .full

theorem Halt.Fits.ok {α : Type} {x : Except Halt α} {a : α} (e : x = .ok a) : Halt.Fits x :=
  .inl ⟨a, e⟩

theorem Halt.Fits.bind {α β : Type} {x : Except Halt α} {f : α → Except Halt β}
    (first : Halt.Fits x) (later : ∀ a, x = .ok a → Halt.Fits (f a)) : Halt.Fits (x >>= f) := by
  rcases first with ⟨a, e⟩ | full
  · rw [e]
    exact later a e
  · rw [full]
    exact .inr rfl

theorem exists_ok_of_any {ε α : Type} {x : Except ε α} {check : α → Bool}
    (passed : x.toOption.any check = true) : ∃ a, x = .ok a ∧ check a = true := by
  cases x with
  | error e => cases passed
  | ok a => exact ⟨a, rfl, passed⟩

namespace Heap

theorem eq_of_toList {h k : Heap} (e : h.toList = k.toList) : h = k := by
  cases h
  cases k
  simpa [toList] using e

@[simp] theorem length_toList (h : Heap) : h.toList.length = h.top := by simp [toList, top]

@[simp] theorem getElem?_toList (h : Heap) (a : Nat) : h.toList[a]? = h.get? a := by
  simp [toList, get?]

theorem top_lt (h : Heap) : h.top < 2 ^ 60 := h.size_lt

theorem lt_top_of_get? {h : Heap} {a : Nat} {c : Cell} (e : h.get? a = some c) : a < h.top := by
  rw [← getElem?_toList] at e
  simpa using (List.getElem?_eq_some_iff.mp e).choose

theorem exists_get? {h : Heap} {a : Nat} (inside : a < h.top) : ∃ c, h.get? a = some c := by
  rw [← getElem?_toList]
  exact ⟨_, List.getElem?_eq_getElem (by simpa using inside)⟩

theorem get?_eq_none {h : Heap} {a : Nat} (outside : h.top ≤ a) : h.get? a = none := by
  rw [← getElem?_toList]
  exact List.getElem?_eq_none (by simpa using outside)

theorem eq_of_get? {h k : Heap} (same : ∀ a, h.get? a = k.get? a) : h = k := by
  apply eq_of_toList
  apply List.ext_getElem?
  intro a
  simpa using same a

theorem read_eq_ok {h : Heap} {a : Nat} {c : Cell} : h.read a = .ok c ↔ h.get? a = some c := by
  unfold read get?
  cases h.cells[a]? <;> simp

theorem target_eq_ok {h : Heap} {c d : Cell} : h.target c = .ok d ↔ h.get? c.addr = some d :=
  read_eq_ok

theorem write_eq_ok {h k : Heap} {a : Nat} {c : Cell} :
    h.write a c = .ok k ↔ a < h.top ∧ k.toList = h.toList.set a c := by
  unfold write
  split
  case isTrue inside =>
    constructor
    · intro e
      cases e
      exact ⟨inside, by simp [toList]⟩
    · intro e
      rw [Except.ok.injEq]
      exact eq_of_toList (by simpa [toList] using e.2.symm)
  case isFalse outside => simp [top, outside]

theorem push_eq_ok {h k : Heap} {c : Cell} :
    h.push c = .ok k ↔ k.toList = h.toList ++ [c] := by
  unfold push
  split
  case isTrue room =>
    constructor
    · intro e
      cases e
      simp [toList]
    · intro e
      rw [Except.ok.injEq]
      exact eq_of_toList (by simpa [toList] using e.symm)
  case isFalse full =>
    constructor
    · intro e
      cases e
    · intro e
      have lengths := congrArg List.length e
      have bound := k.top_lt
      simp only [length_toList, List.length_append, List.length_cons, List.length_nil] at lengths
      simp only [top] at lengths bound
      omega

theorem pushAll_eq_ok {h k : Heap} {cs : List Cell} :
    h.pushAll cs = .ok k ↔ k.toList = h.toList ++ cs := by
  induction cs generalizing h with
  | nil =>
    simp only [pushAll, Except.ok.injEq, List.append_nil]
    exact ⟨fun e => e ▸ rfl, fun e => eq_of_toList e.symm⟩
  | cons c cs ih =>
    simp only [pushAll, Halt.bind_eq_ok, push_eq_ok, ih]
    constructor
    · rintro ⟨m, first, rest⟩
      simp [rest, first]
    · intro e
      have bound := k.top_lt
      have lengths := congrArg List.length e
      simp only [length_toList, List.length_append, List.length_cons] at lengths
      refine ⟨⟨(h.toList ++ [c]).toArray, ?_⟩, by simp [toList], by simpa [toList] using e⟩
      simp only [List.size_toArray, List.length_append, length_toList, List.length_singleton]
      omega

theorem pushRelocated_eq_ok {h k : Heap} {base : Nat} {cs : List Cell} :
    h.pushRelocated base cs = .ok k ↔ k.toList = h.toList ++ cs.map (·.relocate base) :=
  pushAll_eq_ok

@[simp] theorem toList_truncate (h : Heap) (a : Nat) :
    (h.truncate a).toList = h.toList.take a := by
  simp [truncate, toList]

theorem get?_truncate (h : Heap) (n a : Nat) :
    (h.truncate n).get? a = if a < n then h.get? a else none := by
  rw [← getElem?_toList, toList_truncate, List.getElem?_take, getElem?_toList]

theorem top_write {h k : Heap} {a : Nat} {c : Cell} (e : h.write a c = .ok k) :
    k.top = h.top := by
  rw [← length_toList, (write_eq_ok.mp e).2, List.length_set, length_toList]

theorem get?_write {h k : Heap} {a : Nat} {c : Cell} (e : h.write a c = .ok k) (b : Nat) :
    k.get? b = if b = a then some c else h.get? b := by
  obtain ⟨inside, list⟩ := write_eq_ok.mp e
  rw [← getElem?_toList, list, List.getElem?_set, length_toList, getElem?_toList]
  by_cases same : b = a
  · simp [same, inside]
  · simp [same, Ne.symm same]

theorem exists_write {h : Heap} {a : Nat} (inside : a < h.top) (c : Cell) :
    ∃ k, h.write a c = .ok k := by
  unfold write
  exact ⟨_, dif_pos inside⟩

theorem get?_append {h k : Heap} {cs : List Cell} (e : k.toList = h.toList ++ cs) (a : Nat) :
    k.get? a = if a < h.top then h.get? a else cs[a - h.top]? := by
  rw [← getElem?_toList, e, List.getElem?_append, length_toList, getElem?_toList]

theorem top_append {h k : Heap} {cs : List Cell} (e : k.toList = h.toList ++ cs) :
    k.top = h.top + cs.length := by
  rw [← length_toList, e, List.length_append, length_toList]

theorem get?_append_left {h k : Heap} {cs : List Cell} (e : k.toList = h.toList ++ cs)
    {a : Nat} {c : Cell} (at' : h.get? a = some c) : k.get? a = some c := by
  rw [get?_append e, if_pos (lt_top_of_get? at'), at']

/-! ### Copies of stored cells -/

/-- The `len` cells from `start`. -/
def span (h : Heap) (start len : Nat) : List Cell := (h.toList.drop start).take len

theorem length_span {h : Heap} {start len : Nat} (inside : start + len ≤ h.top) :
    (h.span start len).length = len := by
  simp only [span, List.length_take, List.length_drop, length_toList]
  omega

theorem getElem?_span {h : Heap} {start len i : Nat} (short : i < len) :
    (h.span start len)[i]? = h.get? (start + i) := by
  rw [span, List.getElem?_take, if_pos short, List.getElem?_drop, getElem?_toList]

theorem exists_get?_of_mem_span {h : Heap} {start len : Nat} {c : Cell}
    (member : c ∈ h.span start len) : ∃ a, h.get? a = some c := by
  obtain ⟨a, found⟩ :=
    List.mem_iff_getElem?.mp (List.mem_of_mem_drop (List.mem_of_mem_take member))
  exact ⟨a, by rwa [getElem?_toList] at found⟩

theorem copyCells_eq_ok {h k : Heap} {base n a : Nat} (inside : a + n ≤ h.top) :
    copyCells base n a h = .ok k ↔
      k.toList = h.toList ++ (h.span a n).map (·.relocate base) := by
  induction n generalizing a h with
  | zero =>
    simp only [copyCells, span, List.take_zero, List.map_nil, List.append_nil, Except.ok.injEq]
    exact ⟨fun e => e ▸ rfl, fun e => eq_of_toList e.symm⟩
  | succ n ih =>
    obtain ⟨c, atA⟩ := exists_get? (h := h) (a := a) (by omega)
    have first : h.span a (n + 1) = c :: h.span (a + 1) n := by
      have e : h.toList[a]? = some c := by simpa using atA
      obtain ⟨bound, value⟩ := List.getElem?_eq_some_iff.mp e
      simp only [span]
      rw [List.drop_eq_getElem_cons bound, value, List.take_succ_cons]
    simp only [copyCells, Halt.bind_eq_ok, read_eq_ok, push_eq_ok, atA, Option.some.injEq,
      exists_eq_left', first, List.map_cons]
    have later {m : Heap} (e : m.toList = h.toList ++ [c.relocate base]) :
        m.span (a + 1) n = h.span (a + 1) n := by
      simp only [span, e]
      rw [List.drop_append_of_le_length (by simp; omega), List.take_append_of_le_length]
      simp only [List.length_drop, length_toList]
      omega
    constructor
    · rintro ⟨m, pushed, rest⟩
      rw [ih (by rw [top_append pushed]; simp; omega), later pushed, pushed] at rest
      simpa using rest
    · intro e
      have bound := k.top_lt
      have lengths := congrArg List.length e
      simp only [length_toList, List.length_append, List.length_cons] at lengths
      have pushed : (⟨(h.toList ++ [c.relocate base]).toArray, by simp; omega⟩ : Heap).toList =
          h.toList ++ [c.relocate base] := by simp [toList]
      refine ⟨_, pushed, ?_⟩
      rw [ih (by rw [top_append pushed]; simp; omega), later pushed, pushed]
      simpa using e

theorem copyRelocated_eq_ok {h k : Heap} {base start len : Nat} (inside : start + len ≤ h.top) :
    h.copyRelocated base start len = .ok k ↔
      k.toList = h.toList ++ (h.span start len).map (·.relocate base) := by
  have bound := h.top_lt
  have exact : spanEnd start len - start = len := by
    rw [spanEnd, Nat.mod_eq_of_lt (by omega)]
    omega
  unfold copyRelocated
  rw [exact]
  split
  · exact copyCells_eq_ok inside
  · constructor
    · intro e
      cases e
    · intro e
      have lengths := congrArg List.length e
      have bound := k.top_lt
      simp only [length_toList, List.length_append, List.length_map, length_span inside] at lengths
      omega

theorem exists_copyRelocated {h : Heap} {start len : Nat} (inside : start + len ≤ h.top)
    (base : Nat) (room : h.top + len < 2 ^ 60) : ∃ k, h.copyRelocated base start len = .ok k := by
  let cells := h.toList ++ (h.span start len).map (·.relocate base)
  have size : cells.toArray.size < 2 ^ 60 := by
    simp only [cells, List.size_toArray, List.length_append, length_toList, List.length_map,
      length_span inside]
    exact room
  exact ⟨⟨cells.toArray, size⟩, (copyRelocated_eq_ok inside).mpr rfl⟩

theorem copyRelocated_fits {h : Heap} {start len : Nat} (inside : start + len ≤ h.top)
    (base : Nat) : Halt.Fits (h.copyRelocated base start len) := by
  by_cases room : h.top + len < 2 ^ 60
  · exact .inl (exists_copyRelocated inside base room)
  · exact .inr (if_neg room)

/-! ### Structures -/

/-- A structure with all its elements lies at `a`. -/
def Complete (h : Heap) (a : Nat) : Prop := ∃ n, h.get? a = some (.header n) ∧ a + n < h.top

instance (h : Heap) (a : Nat) : Decidable (h.Complete a) :=
  decidable_of_iff (∃ n ∈ List.range h.top, h.get? a = some (.header n) ∧ a + n < h.top)
    ⟨fun ⟨n, _, block⟩ => ⟨n, block⟩,
      fun ⟨n, header, inside⟩ => ⟨n, List.mem_range.mpr (by omega), header, inside⟩⟩

theorem arity_of_header {h : Heap} {c : Cell} {n : Nat}
    (header : h.get? c.addr = some (.header n)) (small : n < 2 ^ 60) : h.arity c = some n := by
  simp [arity, header, Cell.addr_header small]

/-! ### Dereferencing -/

/-- Following variables from the first cell ends at the second. -/
inductive Leads (h : Heap) : Cell → Cell → Prop
  | value {c : Cell} : c.isVar = false → Leads h c c
  | root {c : Cell} : c.isVar = true → h.get? c.addr = some c → Leads h c c
  | step {c next x : Cell} : c.isVar = true → h.get? c.addr = some next → next ≠ c →
      Leads h next x → Leads h c x

theorem Leads.of_derefWithin {h : Heap} {n : Nat} {c x : Cell}
    (e : h.derefWithin n c = .ok x) : h.Leads c x := by
  induction n generalizing c with
  | zero =>
    unfold derefWithin at e
    split at e
    case isTrue isVar =>
      obtain ⟨next, found, e⟩ := Halt.bind_eq_ok.mp e
      rw [target_eq_ok] at found
      split at e
      · next same =>
        cases e
        exact .root isVar (same ▸ found)
      · cases e
    case isFalse notVar =>
      cases e
      exact .value (by simpa using notVar)
  | succ n ih =>
    unfold derefWithin at e
    split at e
    case isTrue isVar =>
      obtain ⟨next, found, e⟩ := Halt.bind_eq_ok.mp e
      rw [target_eq_ok] at found
      split at e
      · next same =>
        cases e
        exact .root isVar (same ▸ found)
      · next other => exact .step isVar found other (ih e)
    case isFalse notVar =>
      cases e
      exact .value (by simpa using notVar)

theorem deref_of_value {h : Heap} {c : Cell} (notVar : c.isVar = false) : h.deref c = .ok c := by
  unfold Heap.deref Heap.derefWithin
  simp [notVar]

theorem Leads.of_deref {h : Heap} {c x : Cell} (e : h.deref c = .ok x) : h.Leads c x :=
  .of_derefWithin e

theorem Leads.unique {h : Heap} {c x y : Cell} (hx : h.Leads c x) (hy : h.Leads c y) :
    x = y := by
  induction hx with
  | value notVar =>
    cases hy with
    | value _ => rfl
    | root isVar _ => simp [notVar] at isVar
    | step isVar _ _ _ => simp [notVar] at isVar
  | root isVar found =>
    cases hy with
    | value _ => rfl
    | root _ _ => rfl
    | step _ found' other _ =>
      rw [found, Option.some.injEq] at found'
      exact absurd found'.symm other
  | step isVar found other _ ih =>
    cases hy with
    | value notVar => simp [notVar] at isVar
    | root _ found' =>
      rw [found, Option.some.injEq] at found'
      exact absurd found' other
    | step _ found' _ rest =>
      rw [found, Option.some.injEq] at found'
      exact ih (found' ▸ rest)

theorem Leads.ended {h : Heap} {c x : Cell} (e : h.Leads c x) : h.Leads x x := by
  induction e with
  | value notVar => exact .value notVar
  | root isVar found => exact .root isVar found
  | step _ _ _ _ ih => exact ih

theorem Leads.root_of_isVar {h : Heap} {c x : Cell} (e : h.Leads c x) (isVar : x.isVar = true) :
    h.get? x.addr = some x := by
  induction e with
  | value notVar => simp [notVar] at isVar
  | root _ found => exact found
  | step _ _ _ _ ih => exact ih isVar

end Heap

end HornMachine
