import HornMachine.Proofs.UnificationTurn

/-!
# Closed regions of a heap

From some address on, a heap holds only terms: variables lead to elements,
references to complete blocks, constants to symbols, and none of them leaves the
region. Variables point downwards, so every chain ends. Unification only
overwrites unbound variables with terms, which keeps a region closed, never reads
outside it, and touches nothing below it.
-/
namespace HornMachine

/-- A cell that may stand for an element of a structure. -/
def Cell.IsElement (c : Cell) : Prop := c.tag ≠ .arrayHeader ∧ c.tag ≠ .malformed

theorem Cell.IsElement.role {c : Cell} (e : c.IsElement) :
    c.isVar = true ∨ c.tag = .structRef ∨ c.tag = .constant ∨ c.tag = .number := by
  rw [Cell.isVar_iff]
  obtain ⟨header, malformed⟩ := e
  cases tag : c.tag <;> simp_all

theorem Cell.isElement_of_isVar {c : Cell} (isVar : c.isVar = true) : c.IsElement := by
  rcases Cell.isVar_iff.mp isVar with tag | tag <;> constructor <;> rw [tag] <;> decide

theorem Cell.isElement_of_tag {c : Cell} {t : Tag} (tag : c.tag = t) (header : t ≠ .arrayHeader)
    (malformed : t ≠ .malformed) : c.IsElement := ⟨tag ▸ header, tag ▸ malformed⟩

namespace Heap

/-- An element lies at `a`. -/
def HasElement (h : Heap) (a : Nat) : Prop := ∃ c, h.get? a = some c ∧ c.IsElement

/-- A structure of `n` elements lies at `a`. -/
def HasBlock (h : Heap) (a n : Nat) : Prop :=
  h.get? a = some (.header n) ∧ ∀ i, i < n → h.HasElement (a + 1 + i)

/-- `c` stands for a term of the region from `lo` on, over `count` symbols. -/
structure IsTerm (h : Heap) (lo count : Nat) (c : Cell) : Prop where
  element : c.IsElement
  var : c.isVar = true → lo ≤ c.addr ∧ h.HasElement c.addr
  ref : c.tag = .structRef → lo ≤ c.addr ∧ ∃ n, h.HasBlock c.addr n
  const : c.tag = .constant → ∃ s, s < count ∧ c = .constant s

/-- All elements from `lo` on are terms of that region. -/
def Closed (h : Heap) (lo count : Nat) : Prop :=
  ∀ a c, lo ≤ a → h.get? a = some c → c.IsElement →
    h.IsTerm lo count c ∧ (c.isVar = true → c.addr ≤ a)

/-- `k` has everything of `h` but unbound variables from `lo` on, and elements
where `h` has elements. -/
structure Keeps (lo : Nat) (h k : Heap) : Prop where
  value : ∀ a c, h.get? a = some c → c.isVar = false → k.get? a = some c
  element : ∀ a, h.HasElement a → k.HasElement a
  below : ∀ a c, a < lo → h.get? a = some c → k.get? a = some c

variable {h k l : Heap} {lo count : Nat} {c x : Cell}

theorem HasBlock.count_le {a n : Nat} (block : h.HasBlock a n) : a + n < h.top := by
  cases n with
  | zero => exact lt_top_of_get? block.1
  | succ n =>
    obtain ⟨c, found, -⟩ := block.2 n (Nat.lt_succ_self n)
    have := lt_top_of_get? found
    omega

theorem HasBlock.count_lt {a n : Nat} (block : h.HasBlock a n) : n < 2 ^ 60 := by
  have := block.count_le
  have := h.top_lt
  omega

theorem HasBlock.addr_header {a n : Nat} (block : h.HasBlock a n) :
    (Cell.header n).addr = n := Cell.addr_header block.count_lt

theorem HasBlock.arity {n : Nat} (block : h.HasBlock c.addr n) : h.arity c = some n :=
  arity_of_header block.1 block.count_lt

theorem Keeps.refl (lo : Nat) (h : Heap) : Keeps lo h h :=
  ⟨fun _ _ e _ => e, fun _ e => e, fun _ _ _ e => e⟩

theorem Keeps.trans (first : Keeps lo h k) (second : Keeps lo k l) : Keeps lo h l where
  value a c found notVar := second.value a c (first.value a c found notVar) notVar
  element a e := second.element a (first.element a e)
  below a c low found := second.below a c low (first.below a c low found)

theorem Keeps.block {a n : Nat} (keeps : Keeps lo h k) (block : h.HasBlock a n) :
    k.HasBlock a n :=
  ⟨keeps.value _ _ block.1 (Cell.header_isVar n), fun i inside => keeps.element _ (block.2 i inside)⟩

theorem IsTerm.mono (term : h.IsTerm lo count c) (keeps : Keeps lo h k) : k.IsTerm lo count c where
  element := term.element
  var isVar := ⟨(term.var isVar).1, keeps.element _ (term.var isVar).2⟩
  ref tag := by
    obtain ⟨above, n, block⟩ := term.ref tag
    exact ⟨above, n, keeps.block block⟩
  const := term.const

theorem IsTerm.complete (term : h.IsTerm lo count c) (tag : c.tag = .structRef) :
    h.Complete c.addr := by
  obtain ⟨-, n, block⟩ := term.ref tag
  exact ⟨n, block.1, block.count_le⟩

theorem Keeps.append {cs : List Cell} (e : k.toList = h.toList ++ cs) : Keeps lo h k where
  value _ _ found _ := get?_append_left e found
  element _ element := by
    obtain ⟨c, found, isElement⟩ := element
    exact ⟨c, get?_append_left e found, isElement⟩
  below _ _ _ found := get?_append_left e found

theorem Keeps.write {a : Nat} {v e : Cell} (written : h.write a e = .ok k)
    (free : h.get? a = some v) (isVar : v.isVar = true) (above : lo ≤ a)
    (element : e.IsElement) : Keeps lo h k where
  value b c found notVar := by
    rw [get?_write written]
    split
    · next same =>
      rw [same, free, Option.some.injEq] at found
      simp [← found, isVar] at notVar
    · exact found
  element b old := by
    obtain ⟨c, found, isElement⟩ := old
    by_cases same : b = a
    · exact ⟨e, by rw [get?_write written, if_pos same], element⟩
    · exact ⟨c, by rw [get?_write written, if_neg same, found], isElement⟩
  below b c low found := by
    rw [get?_write written, if_neg (by omega), found]

theorem Closed.write {a : Nat} {v e : Cell} (closed : h.Closed lo count)
    (written : h.write a e = .ok k) (free : h.get? a = some v) (isVar : v.isVar = true)
    (above : lo ≤ a) (term : h.IsTerm lo count e) (down : e.isVar = true → e.addr ≤ a) :
    k.Closed lo count := by
  have keeps : Keeps lo h k := .write written free isVar above term.element
  intro b c le found element
  rw [get?_write written] at found
  split at found
  · next same =>
    cases found
    exact ⟨term.mono keeps, fun e => same ▸ down e⟩
  · obtain ⟨old, lower⟩ := closed b c le found element
    exact ⟨old.mono keeps, lower⟩

/-! ### Dereferencing inside a closed region -/

theorem Leads.term (closed : h.Closed lo count) (term : h.IsTerm lo count c)
    (leads : h.Leads c x) : h.IsTerm lo count x := by
  induction leads with
  | value _ => exact term
  | root _ _ => exact term
  | step isVar found _ _ ih =>
    obtain ⟨above, d, found', element⟩ := term.var isVar
    rw [found, Option.some.injEq] at found'
    subst found'
    exact ih (closed _ _ above found element).1

/-- Chains point downwards, so they end. -/
theorem Closed.exists_deref (closed : h.Closed lo count) (term : h.IsTerm lo count c) :
    ∃ x, h.deref c = .ok x := by
  simp only [deref_eq_ok]
  refine exists_leads_of_down (P := h.IsTerm lo count) term fun c term isVar => ?_
  obtain ⟨above, d, found, element⟩ := term.var isVar
  obtain ⟨term', lower⟩ := closed _ _ above found element
  exact ⟨d, found, term', lower⟩

end Heap

end HornMachine
