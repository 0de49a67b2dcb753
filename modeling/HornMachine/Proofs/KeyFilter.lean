import HornMachine.Clause.Key
import HornMachine.Proofs.LinkedCode
import HornMachine.Proofs.SameTrees

/-!
# The key filter

A key names the value an element dereferences to as far as unification compares
it at once. Two elements whose keys do not admit each other therefore clash. The
clash survives every binding made before the pair is reached, so a goal never
unifies with a head that its keys rule out, though the unification may not end.

The keys of a copied head are those of its code, wherever the copy lies.
-/
namespace HornMachine

/-- Two cells that dereference to values unification cannot make equal. -/
def Clash (h : Heap) (a b : Cell) : Prop :=
  ∃ x y, h.Leads a x ∧ h.Leads b y ∧ x ≠ y ∧ x.isVar = false ∧ y.isVar = false ∧
    (x.tag = .structRef → y.tag = .structRef → h.get? x.addr ≠ h.get? y.addr)

variable {h k : Heap} {lo count : Nat} {a b c v e x y : Cell}

namespace Heap

/-- The cell stands for the value `x` and will after any binding: if `x` is a reference,
what it refers to is no variable. -/
def Settles (h : Heap) (c x : Cell) : Prop :=
  h.Leads c x ∧ x.isVar = false ∧
    (x.tag = .structRef → ∃ d, h.get? x.addr = some d ∧ d.isVar = false)

theorem Settles.bind (settles : h.Settles c x) (binding : h.Binding k v e) : k.Settles c x := by
  obtain ⟨leads, value, header⟩ := settles
  have apart : x ≠ v := by
    rintro rfl
    exact Bool.noConfusion (value.symm.trans binding.isVar)
  refine ⟨binding.leads leads apart, value, fun tag => ?_⟩
  obtain ⟨d, found, notVar⟩ := header tag
  exact ⟨d, binding.get?_of_value found notVar, notVar⟩

theorem Settles.append {cs : List Cell} (settles : h.Settles c x)
    (e : k.toList = h.toList ++ cs) : k.Settles c x := by
  obtain ⟨leads, value, header⟩ := settles
  refine ⟨leads.append e, value, fun tag => ?_⟩
  obtain ⟨d, found, notVar⟩ := header tag
  exact ⟨d, get?_append_left e found, notVar⟩

end Heap

theorem Clash.ne (clash : Clash h a b) : a ≠ b := by
  rintro rfl
  obtain ⟨x, y, ax, ay, other, -⟩ := clash
  exact other (ax.unique ay)

theorem Clash.bind (clash : Clash h a b) (left : h.Settles a x) (right : h.Settles b y)
    (binding : h.Binding k v e) : Clash k a b := by
  obtain ⟨x', y', ax, bY, other, xValue, yValue, headers⟩ := clash
  obtain rfl := left.1.unique ax
  obtain rfl := right.1.unique bY
  refine ⟨x, y, (left.bind binding).1, (right.bind binding).1, other, xValue, yValue, ?_⟩
  intro tagX tagY
  obtain ⟨d, atX, dValue⟩ := left.2.2 tagX
  obtain ⟨d', atY, dValue'⟩ := right.2.2 tagY
  rw [binding.get?_of_value atX dValue, binding.get?_of_value atY dValue', ← atX, ← atY]
  exact headers tagX tagY

/-- The clashing pair stays on the work list, and its clash stays. -/
theorem Clash.turn {s t : Store} {boundary : Nat} {c d z w : Cell}
    {work queued : List (Cell × Cell)} (clash : Clash s.heap a b)
    (left : s.heap.Settles a x) (right : s.heap.Settles b y)
    (member : (a, b) ∈ (c, d) :: work) (cz : s.heap.Leads c z) (dw : s.heap.Leads d w)
    (met : Store.Met boundary s work z w (some (queued, t))) :
    (a, b) ∈ queued ∧ Clash t.heap a b ∧ t.heap.Settles a x ∧ t.heap.Settles b y := by
  rcases List.mem_cons.mp member with first | later
  · obtain ⟨rfl, rfl⟩ := Prod.mk.inj first
    obtain ⟨x', y', ax, bY, other, xValue, yValue, headers⟩ := clash
    obtain rfl := ax.unique cz
    obtain rfl := bY.unique dw
    cases met with
    | same equal => exact absurd equal other
    | bound _ sides isVar _ _ =>
      rcases sides with ⟨rfl, -⟩ | ⟨rfl, -⟩
      · simp [xValue] at isVar
      · simp [yValue] at isVar
    | opened _ tagX tagY atX atY _ => exact absurd (atX.trans atY.symm) (headers tagX tagY)
  · cases met with
    | same _ => exact ⟨later, clash, left, right⟩
    | opened _ _ _ _ _ pushed =>
      exact ⟨(Store.pushElements_spec pushed).1 _ later, clash, left, right⟩
    | bound other sides isVar _ bound =>
      have binding := Store.binding_of_bound cz dw other sides isVar bound
      exact ⟨later, clash.bind left right binding, left.bind binding, right.bind binding⟩

theorem Clash.not_unifies {s t : Store} {boundary fuel : Nat} {work : List (Cell × Cell)}
    (clash : Clash s.heap a b) (left : s.heap.Settles a x) (right : s.heap.Settles b y)
    (member : (a, b) ∈ work) : Store.unifyAll boundary fuel work s ≠ .ok (true, t) := by
  intro e
  obtain ⟨left, ⟨member, -⟩, done⟩ := Store.unifyAll_keeps
    (I := fun work s => (a, b) ∈ work ∧ Clash s.heap a b ∧ s.heap.Settles a x ∧
      s.heap.Settles b y)
    (fun ⟨member, clash, left, right⟩ cz dw met => clash.turn left right member cz dw met)
    ⟨member, clash, left, right⟩ e
  rw [done rfl] at member
  cases member

/-! ### Keys of elements -/

theorem Key.admits_any_left (l : Key) : Key.any.admits l = true := by simp [admits, isAny]

theorem Key.admits_any_right (l : Key) : l.admits Key.any = true := by simp [admits, isAny]

theorem Key.admits_self (l : Key) : l.admits l = true := by simp [admits]

theorem Key.known_left {l m : Key} (refused : l.admits m = false) : l ≠ .any := by
  rintro rfl
  simp [admits_any_left] at refused

theorem Key.known_right {l m : Key} (refused : l.admits m = false) : m ≠ .any := by
  rintro rfl
  simp [admits_any_right] at refused

theorem Key.isVar_eq_false {l : Key} (made : Key.ofCell h x = .ok l) (known : l ≠ .any) :
    x.isVar = false := by
  rw [Bool.eq_false_iff]
  intro isVar
  rcases Cell.isVar_iff.mp isVar with tag | tag <;>
  · simp only [Key.ofCell, tag, Halt.pure_eq_ok] at made
    exact known made.symm

theorem Key.exists_header {l : Key} (made : Key.ofCell h x = .ok l) (tag : x.tag = .structRef) :
    ∃ d, h.get? x.addr = some d ∧ l = ⟨d.word⟩ := by
  simp only [Key.ofCell, tag, Halt.bind_eq_ok, Halt.pure_eq_ok, Heap.target_eq_ok] at made
  obtain ⟨d, found, rfl⟩ := made
  exact ⟨d, found, rfl⟩

theorem Key.exists_ofCell (target : x.tag = .structRef → ∃ d, h.get? x.addr = some d) :
    ∃ l, Key.ofCell h x = .ok l := by
  unfold Key.ofCell
  split
  · next tag =>
    obtain ⟨d, found⟩ := target tag
    exact ⟨_, Halt.bind_eq_ok.mpr ⟨d, Heap.target_eq_ok.mpr found, rfl⟩⟩
  all_goals exact ⟨_, rfl⟩

theorem Key.clash {l m : Key} (keyX : Key.ofCell h x = .ok l) (keyY : Key.ofCell h y = .ok m)
    (refused : l.admits m = false) :
    x ≠ y ∧ x.isVar = false ∧ y.isVar = false ∧
      (x.tag = .structRef → y.tag = .structRef → h.get? x.addr ≠ h.get? y.addr) := by
  refine ⟨?_, isVar_eq_false keyX (known_left refused), isVar_eq_false keyY (known_right refused),
    ?_⟩
  · rintro rfl
    rw [keyX, Except.ok.injEq] at keyY
    simp [keyY, Key.admits_self] at refused
  · intro tagX tagY same
    obtain ⟨d, atX, rfl⟩ := exists_header keyX tagX
    obtain ⟨e, atY, rfl⟩ := exists_header keyY tagY
    rw [same, atY, Option.some.injEq] at atX
    simp [atX, Key.admits_self] at refused

theorem Key.ofCell_append {cs : List Cell} {l : Key} (e : k.toList = h.toList ++ cs)
    (made : Key.ofCell h x = .ok l) : Key.ofCell k x = .ok l := by
  unfold Key.ofCell at made ⊢
  split
  · next tag =>
    rw [tag] at made
    obtain ⟨d, found, made⟩ := Halt.bind_eq_ok.mp made
    rw [Heap.target_eq_ok] at found
    exact Halt.bind_eq_ok.mpr
      ⟨d, Heap.target_eq_ok.mpr (Heap.get?_append_left e found), made⟩
  all_goals simp_all

namespace Keys

theorem keyAt_eq_ok {a : Nat} {key : Key} :
    keyAt h a = .ok key ↔
      ∃ c x, h.get? a = some c ∧ h.deref c = .ok x ∧ Key.ofCell h x = .ok key := by
  simp only [keyAt, Halt.bind_eq_ok, Heap.read_eq_ok]
  constructor
  · rintro ⟨c, found, x, ended, key⟩
    exact ⟨c, x, found, ended, key⟩
  · rintro ⟨c, x, found, ended, key⟩
    exact ⟨c, found, x, ended, key⟩

theorem keyAt_append {a : Nat} {l : Key} {cs : List Cell} (e : k.toList = h.toList ++ cs)
    (made : keyAt h a = .ok l) : keyAt k a = .ok l := by
  obtain ⟨c, x, found, ended, key⟩ := keyAt_eq_ok.mp made
  exact keyAt_eq_ok.mpr ⟨c, x, Heap.get?_append_left e found, Heap.deref_append e ended,
    Key.ofCell_append e key⟩

/-- The element at `a` settles at a value with this key. -/
def Fixed (h : Heap) (a : Nat) (l : Key) : Prop :=
  ∃ c x, h.get? a = some c ∧ h.Settles c x ∧ Key.ofCell h x = .ok l

theorem Fixed.of_keyAt {a : Nat} {l : Key} (made : keyAt h a = .ok l) (known : l ≠ .any)
    (headed : ∀ c x, h.get? a = some c → h.Leads c x → h.Headed x) : Fixed h a l := by
  obtain ⟨c, x, found, ended, key⟩ := keyAt_eq_ok.mp made
  have leads := Heap.Leads.of_deref ended
  refine ⟨c, x, found, ⟨leads, Key.isVar_eq_false key known, fun tag => ?_⟩, key⟩
  obtain ⟨d, there, -⟩ := Key.exists_header key tag
  exact ⟨d, there, headed c x found leads tag d there⟩

theorem Fixed.append {a : Nat} {l : Key} {cs : List Cell} (fixed : Fixed h a l)
    (e : k.toList = h.toList ++ cs) : Fixed k a l := by
  obtain ⟨c, x, found, settles, key⟩ := fixed
  exact ⟨c, x, Heap.get?_append_left e found, settles.append e, Key.ofCell_append e key⟩

/-- The keys of a structure of `n` elements, position by position. -/
theorem ofRef_eq_ok_of_arity {ref : Cell} {n positions : Nat} {keys : Keys}
    (arity : h.arity ref = some n) :
    ofRef h ref positions = .ok keys ↔ ∀ i : Fin maxPositions,
      if i < min n positions then keyAt h (ref.addr + 1 + i) = .ok (keys.get i)
      else keys.get i = .any := by
  have entry (i : Nat) (key : Key) :
      (if i < min n positions then keyAt h (ref.addr + 1 + i) else return .any) = .ok key ↔
        if i < min n positions then keyAt h (ref.addr + 1 + i) = .ok key else key = .any := by
    split
    · rfl
    · rw [Halt.pure_eq_ok, eq_comm]
  unfold ofRef
  simp only [arity, Option.getD_some]
  constructor
  · intro made i
    obtain ⟨k₀, e₀, made⟩ := Halt.bind_eq_ok.mp made
    obtain ⟨k₁, e₁, made⟩ := Halt.bind_eq_ok.mp made
    obtain ⟨k₂, e₂, made⟩ := Halt.bind_eq_ok.mp made
    cases made
    obtain ⟨i, inside⟩ := i
    match i, inside with
    | 0, _ => exact (entry 0 k₀).mp e₀
    | 1, _ => exact (entry 1 k₁).mp e₁
    | 2, _ => exact (entry 2 k₂).mp e₂
  · intro each
    refine Halt.bind_eq_ok.mpr ⟨keys[0], (entry 0 _).mpr (each (0 : Fin 3)), ?_⟩
    refine Halt.bind_eq_ok.mpr ⟨keys[1], (entry 1 _).mpr (each (1 : Fin 3)), ?_⟩
    refine Halt.bind_eq_ok.mpr ⟨keys[2], (entry 2 _).mpr (each (2 : Fin 3)), ?_⟩
    refine Halt.pure_eq_ok.mpr (Vector.ext fun i inside => ?_)
    match i, inside with
    | 0, _ => rfl
    | 1, _ => rfl
    | 2, _ => rfl

theorem ofRef_eq_ok {ref : Cell} {n positions : Nat} {keys : Keys}
    (block : h.HasBlock ref.addr n) :
    ofRef h ref positions = .ok keys ↔ ∀ i : Fin maxPositions,
      if i < min n positions then keyAt h (ref.addr + 1 + i) = .ok (keys.get i)
      else keys.get i = .any :=
  ofRef_eq_ok_of_arity block.arity

theorem ofRef_append {ref : Cell} {n positions : Nat} {keys : Keys} {cs : List Cell}
    (e : k.toList = h.toList ++ cs) (block : h.HasBlock ref.addr n)
    (made : ofRef h ref positions = .ok keys) : ofRef k ref positions = .ok keys := by
  have keeps : Heap.Keeps 0 h k := .append e
  rw [ofRef_eq_ok block] at made
  rw [ofRef_eq_ok (keeps.block block)]
  intro i
  have each := made i
  split at each
  · next inside =>
    rw [if_pos inside]
    exact keyAt_append e each
  · next outside =>
    rw [if_neg outside]
    exact each

theorem exists_ofRef_of_arity {ref : Cell} {n : Nat} (arity : h.arity ref = some n)
    (each : ∀ i, i < n → ∃ l, keyAt h (ref.addr + 1 + i) = .ok l) (positions : Nat) :
    ∃ keys, ofRef h ref positions = .ok keys := by
  have entry (i : Nat) : ∃ l,
      if i < min n positions then keyAt h (ref.addr + 1 + i) = .ok l else l = .any := by
    split
    · exact each i (by omega)
    · exact ⟨.any, rfl⟩
  choose key made using entry
  refine ⟨Vector.ofFn fun i => key i, (ofRef_eq_ok_of_arity arity).mpr fun i => ?_⟩
  have same : (Vector.ofFn fun i : Fin maxPositions => key i).get i = key i := by
    exact Vector.getElem_ofFn i.isLt
  rw [same]
  exact made i

theorem exists_ofRef {ref : Cell} (closed : h.Closed lo count) (term : h.IsTerm lo count ref)
    (tag : ref.tag = .structRef) (positions : Nat) :
    ∃ keys, ofRef h ref positions = .ok keys := by
  obtain ⟨low, n, block⟩ := term.ref tag
  refine exists_ofRef_of_arity block.arity (fun i inside => ?_) positions
  obtain ⟨c, found, element⟩ := block.2 i inside
  have term := (closed _ c (by omega) found element).1
  obtain ⟨x, ended⟩ := closed.exists_deref term
  have value := (Heap.Leads.of_deref ended).term closed term
  have target : x.tag = .structRef → ∃ d, h.get? x.addr = some d := by
    intro tag
    obtain ⟨-, m, header, -⟩ := value.ref tag
    exact ⟨_, header⟩
  obtain ⟨key, made⟩ := Key.exists_ofCell target
  exact ⟨key, keyAt_eq_ok.mpr ⟨c, x, found, ended, made⟩⟩

/-- Where keys do not admit each other, both structures have an element with a key. -/
theorem exists_refused {ref ref' : Cell} {n n' positions : Nat} {keys keys' : Keys}
    (arity : h.arity ref = some n) (arity' : k.arity ref' = some n')
    (made : ofRef h ref positions = .ok keys) (made' : ofRef k ref' positions = .ok keys')
    (refused : keys.admits keys' = false) :
    ∃ i l m, i < n ∧ i < n' ∧ keyAt h (ref.addr + 1 + i) = .ok l ∧
      keyAt k (ref'.addr + 1 + i) = .ok m ∧ l.admits m = false := by
  simp only [admits, decide_eq_false_iff_not, not_forall, Bool.not_eq_true] at refused
  obtain ⟨i, refused⟩ := refused
  have left := (ofRef_eq_ok_of_arity arity).mp made i
  have right := (ofRef_eq_ok_of_arity arity').mp made' i
  split at left
  case isFalse => exact absurd left (Key.known_left refused)
  split at right
  case isFalse => exact absurd right (Key.known_right refused)
  case isTrue.isTrue inside inside' =>
    exact ⟨i, _, _, by omega, by omega, left, right, refused⟩

end Keys

/-- Structures with elements whose keys do not admit each other are never made equal.
An element missing on one side stops the unification. -/
theorem Store.not_unifies_at {s t : Store} {boundary fuel i : Nat} {goal head header : Cell}
    {l m : Key} (tagGoal : goal.tag = .structRef) (tagHead : head.tag = .structRef)
    (found : s.heap.get? goal.addr = some header) (inside : i < header.addr)
    (left : Keys.Fixed s.heap (goal.addr + 1 + i) l)
    (right : ∀ d, s.heap.get? (head.addr + 1 + i) = some d →
      Keys.Fixed s.heap (head.addr + 1 + i) m)
    (refused : l.admits m = false) : s.unify fuel boundary goal head ≠ .ok (true, t) := by
  intro e
  obtain ⟨c, x, atG, settlesC, keyX⟩ := left
  have clash (d : Cell) (atH : s.heap.get? (head.addr + 1 + i) = some d) :
      ∃ y, s.heap.Settles d y ∧ Clash s.heap c d := by
    obtain ⟨d', y, atH', settlesD, keyY⟩ := right d atH
    obtain rfl := Option.some.inj (atH.symm.trans atH')
    exact ⟨y, settlesD, x, y, settlesC.1, settlesD.1, Key.clash keyX keyY refused⟩
  cases fuel with
  | zero => cases e
  | succ fuel =>
    rw [Store.unify, unifyAll_cons, Halt.bind_eq_ok] at e
    obtain ⟨o, turned, rest⟩ := e
    obtain ⟨x', y', gx, hy, met⟩ := Met.of_unifyTurn turned
    have valueG := Cell.not_isVar_of_tag tagGoal (by decide) (by decide)
    have valueH := Cell.not_isVar_of_tag tagHead (by decide) (by decide)
    obtain rfl := gx.unique (.value valueG)
    obtain rfl := hy.unique (.value valueH)
    cases met with
    | same equal =>
      subst equal
      obtain ⟨y, -, clash⟩ := clash c atG
      exact clash.ne rfl
    | bound _ sides isVar _ _ =>
      rcases sides with ⟨rfl, -⟩ | ⟨rfl, -⟩
      · simp [valueG] at isVar
      · simp [valueH] at isVar
    | clashed _ _ _ _ => cases rest
    | opened _ _ _ foundG _ pushed =>
      obtain rfl := Option.some.inj (found.symm.trans foundG)
      obtain ⟨u, v, atU, atV, queued⟩ := (pushElements_spec pushed).2.1 i inside
      obtain rfl := Option.some.inj (atG.symm.trans atU)
      obtain ⟨y, settlesV, clash⟩ := clash v atV
      rcases queued with same | member
      · exact clash.ne same
      · exact clash.not_unifies settlesC settlesV member rest

/-- A goal and a head whose keys do not admit each other are never made equal. -/
theorem Store.Within.refuses {start : Heap} {s t : Store} {boundary fuel positions : Nat}
    {goal head : Cell} {keys keys' : Keys}
    (within : Within lo count start [(goal, head)] s) (tagGoal : goal.tag = .structRef)
    (tagHead : head.tag = .structRef) (goalKeys : Keys.ofRef s.heap goal positions = .ok keys)
    (headKeys : Keys.ofRef s.heap head positions = .ok keys')
    (refused : keys.admits keys' = false) :
    Store.unify s fuel boundary goal head ≠ .ok (true, t) := by
  obtain ⟨termGoal, termHead⟩ := within.terms _ (List.mem_singleton_self _)
  obtain ⟨lowG, n, blockG⟩ := termGoal.ref tagGoal
  obtain ⟨lowH, m, blockH⟩ := termHead.ref tagHead
  obtain ⟨i, key, key', insideG, insideH, left, right, refused⟩ :=
    Keys.exists_refused blockG.arity blockH.arity goalKeys headKeys refused
  have headed {b j : Nat} (low : lo ≤ b) (element : s.heap.HasElement (b + 1 + j))
      (c x : Cell) (found : s.heap.get? (b + 1 + j) = some c) (leads : s.heap.Leads c x) :
      s.heap.Headed x := by
    obtain ⟨c', found', isElement⟩ := element
    obtain rfl := Option.some.inj (found.symm.trans found')
    have term := (within.closed _ c (by omega) found isElement).1
    intro tag d there
    obtain ⟨-, p, header, -⟩ := (leads.term within.closed term).ref tag
    obtain rfl := Option.some.inj (there.symm.trans header)
    exact Cell.header_isVar p
  refine not_unifies_at tagGoal tagHead blockG.1 (by rwa [blockG.addr_header]) ?_ ?_ refused
  · exact .of_keyAt left (Key.known_left refused) (headed lowG (blockG.2 i insideG))
  · exact fun _ _ => .of_keyAt right (Key.known_right refused) (headed lowH (blockH.2 i insideH))

/-! ### Keys of copied code -/

namespace ClauseCode

/-- The key of the element at offset `a`. -/
def keyAt (code : ClauseCode) (a : Nat) : Key :=
  match code.cells[a]? with
  | none => .any
  | some c =>
    match c.tag with
    | .structRef => ((code.cells[c.addr]?).map fun d => ⟨d.word⟩).getD .any
    | .constant | .number => ⟨c.word⟩
    | _ => .any

/-- The keys of the structure at a reference into the code. -/
def keys (code : ClauseCode) (ref : Cell) (positions : Nat) : Keys :=
  let arity := ((code.cells[ref.addr]?).map (·.addr)).getD 0
  Vector.ofFn fun i : Fin maxPositions =>
    if i < min arity positions then code.keyAt (ref.addr + 1 + i) else .any

variable {code : ClauseCode} {n : Nat}

/-- In a copy a variable leads to its first occurrence, which is unbound. -/
theorem Copied.leads_first (copied : code.Copied n h k) (linked : code.Linked count)
    (cut : code.Cut n) {a : Nat} (found : code.cells[a]? = some c) (inside : a < n)
    (isVar : c.isVar = true) :
    k.Leads (c.relocate h.top) (Cell.var (h.top + c.addr)) := by
  have ref := Cell.isInternalRef_iff.mpr (.inl isVar)
  have target := (linked.var a c found isVar).2
  have within := (cut a c inside found).1 ref
  have moved := copied.addr ref target within
  have first := copied.get? target within
  have small := Heap.lt_top_of_get? first
  have bound := k.top_lt
  rw [Cell.relocate_var (by omega), Nat.add_comm c.addr] at first
  have root : k.Leads (Cell.var (h.top + c.addr)) (Cell.var (h.top + c.addr)) := by
    refine .root (Cell.var_isVar _) ?_
    rw [Cell.addr_var (by omega)]
    exact first
  by_cases same : Cell.var (h.top + c.addr) = c.relocate h.top
  · rw [← same]
    exact root
  · exact .step (by rwa [Cell.isVar_relocate]) (by rw [moved]; exact first) same root

theorem Copied.keyAt (copied : code.Copied n h k) (linked : code.Linked count)
    (cut : code.Cut n) (low : lo ≤ h.top) (closed : h.Closed lo count) {a : Nat}
    (found : code.cells[a]? = some c) (inside : a < n) (element : c.IsElement) :
    Keys.keyAt k (h.top + a) = .ok (code.keyAt a) := by
  have term : k.IsTerm lo count (c.relocate h.top) :=
    copied.term linked cut low found inside element
  obtain ⟨x, ended⟩ := (copied.closed linked cut low closed).exists_deref term
  have leads := Heap.Leads.of_deref ended
  refine Keys.keyAt_eq_ok.mpr ⟨_, x, copied.get? found inside, ended, ?_⟩
  unfold ClauseCode.keyAt
  rw [found]
  dsimp only
  have value (notVar : c.isVar = false) : x = c.relocate h.top :=
    leads.unique (.value (by rwa [Cell.isVar_relocate]))
  rcases element.role with isVar | tag | tag | tag
  · obtain rfl := leads.unique (copied.leads_first linked cut found inside isVar)
    rw [Key.ofCell, Cell.tag_var]
    rcases Cell.isVar_iff.mp isVar with tag | tag <;>
    · rw [tag]
      rfl
  · have ref := Cell.isInternalRef_iff.mpr (.inr tag)
    obtain ⟨m, block⟩ := linked.ref a c found tag
    have within := (cut a c inside found).1 ref
    have moved := copied.addr ref block.1 within
    have header := (copied.hasBlock block ((cut _ _ within block.1).2 m block)).1
    obtain rfl := value (Cell.not_isVar_of_tag tag (by decide) (by decide))
    rw [Key.ofCell, Cell.tag_relocate, tag, block.1]
    refine Halt.bind_eq_ok.mpr ⟨_, Heap.target_eq_ok.mpr (moved ▸ header), rfl⟩
  all_goals
    obtain rfl := value (Cell.not_isVar_of_tag tag (by decide) (by decide))
    rw [Cell.relocate_of_tag (by simp [tag]), Key.ofCell, tag]
    rfl

/-- Keys do not depend on where the code was copied to. -/
theorem Copied.keys (copied : code.Copied n h k) (linked : code.Linked count)
    (cut : code.Cut n) (low : lo ≤ h.top) (closed : h.Closed lo count) {ref : Cell} {m : Nat}
    (tag : ref.tag = .structRef) (block : code.HasBlock ref.addr m) (inside : ref.addr < n)
    (positions : Nat) :
    Keys.ofRef k (ref.relocate h.top) positions = .ok (code.keys ref positions) := by
  have internal := Cell.isInternalRef_iff.mpr (.inr tag)
  have moved := copied.addr internal block.1 inside
  have bound := (cut _ _ inside block.1).2 m block
  have block' := copied.hasBlock block bound
  have arity : ((code.cells[ref.addr]?).map (·.addr)).getD 0 = m := by
    rw [block.1, Option.map_some, Option.getD_some, block'.addr_header]
  rw [Keys.ofRef_eq_ok (n := m) (moved ▸ block')]
  intro i
  have entry : (code.keys ref positions).get i =
      if i < min m positions then code.keyAt (ref.addr + 1 + i) else .any := by
    rw [← arity]
    exact Vector.getElem_ofFn i.isLt
  rw [entry]
  split
  · next short =>
    obtain ⟨c, found, element⟩ := block.2 i (by omega)
    have key := copied.keyAt linked cut low closed found (by omega) element
    rwa [moved, show h.top + ref.addr + 1 + i = h.top + (ref.addr + 1 + i) by omega]
  · rfl

end ClauseCode

end HornMachine
