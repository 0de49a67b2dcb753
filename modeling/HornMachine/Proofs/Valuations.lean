import HornMachine.Clause.Key
import HornMachine.Proofs.ClosedUnification
import HornMachine.Proofs.SymbolTable
import HornMachine.Term.Readout

/-!
# Valuations of a heap

A valuation says which finite tree every cell stands for. It is consistent with a
region when a variable stands for what its target does and a reference for the
array of its elements; so it solves the region, read as a system of equations.
Binding a variable adds an equation: what is consistent afterwards was so before.
-/
namespace HornMachine

namespace Heap

/-- The tree a cell stands for when the cells on the heap stand for `v`. -/
def treeOf (h : Heap) (symbols : Symbols) (v : Nat → Term) (c : Cell) : Term :=
  match c.tag with
  | .unboundVar | .varRef => v c.addr
  | .structRef => .array ((List.range ((h.arity c).getD 0)).map fun i => v (c.addr + 1 + i))
  | .constant => .label (symbols.nameOf c.payload)
  | .number => .int c.payload
  | .arrayHeader | .malformed => .array []

/-- `v` solves the elements from `lo` on. -/
def Consistent (h : Heap) (symbols : Symbols) (lo : Nat) (v : Nat → Term) : Prop :=
  ∀ (a : Nat) (c : Cell), lo ≤ a → h.get? a = some c → c.IsElement → v a = h.treeOf symbols v c

instance (h : Heap) (symbols : Symbols) (lo : Nat) (v : Nat → Term) :
    Decidable (h.Consistent symbols lo v) :=
  decidable_of_iff (∀ a ∈ List.range h.top, lo ≤ a → ∀ c ∈ h.get? a, c.tag ≠ .arrayHeader →
      c.tag ≠ .malformed → v a = h.treeOf symbols v c)
    ⟨fun all a c low found element =>
        all a (List.mem_range.mpr (lt_top_of_get? found)) low c found element.1 element.2,
      fun consistent a _ low c found header malformed =>
        consistent a c low found ⟨header, malformed⟩⟩

/-- `k` has everything of `h` but unbound variables. -/
def Grown (h k : Heap) : Prop :=
  ∀ (a : Nat) (c : Cell), h.get? a = some c → k.get? a = some c ∨ c = Cell.var a

variable {h k l : Heap} {symbols : Symbols} {lo count : Nat} {c x : Cell} {v w : Nat → Term}

theorem treeOf_var (isVar : c.isVar = true) : h.treeOf symbols v c = v c.addr := by
  rcases Cell.isVar_iff.mp isVar with tag | tag <;> simp only [treeOf, tag]

theorem treeOf_block {n : Nat} (tag : c.tag = .structRef) (block : h.HasBlock c.addr n) :
    h.treeOf symbols v c = .array ((List.range n).map fun i => v (c.addr + 1 + i)) := by
  simp only [treeOf, tag, block.arity, Option.getD_some]

theorem treeOf_constant (tag : c.tag = .constant) :
    h.treeOf symbols v c = .label (symbols.nameOf c.payload) := by
  simp only [treeOf, tag]

theorem treeOf_number (tag : c.tag = .number) : h.treeOf symbols v c = .int c.payload := by
  simp only [treeOf, tag]

theorem treeOf_symbol {s : Nat} {name : String} (known : symbols.resolve s = some name) :
    h.treeOf symbols v (.constant s) = .label name := by
  rw [treeOf_constant (Cell.tag_constant s), Symbols.nameOf_constant known]

/-- What a cell stands for depends on the cells its block covers. -/
theorem IsTerm.treeOf_congr (term : h.IsTerm lo count c) (keeps : ∀ n, c.tag = .structRef →
    h.HasBlock c.addr n → k.HasBlock c.addr n) (same : ∀ a, lo ≤ a → a < h.top → w a = v a) :
    k.treeOf symbols w c = h.treeOf symbols v c := by
  rcases term.element.role with isVar | tag | tag | tag
  · obtain ⟨low, d, found, -⟩ := term.var isVar
    rw [treeOf_var isVar, treeOf_var isVar, same _ low (lt_top_of_get? found)]
  · obtain ⟨low, n, block⟩ := term.ref tag
    rw [treeOf_block tag block, treeOf_block tag (keeps n tag block)]
    refine congrArg Term.array (List.map_congr_left fun i member => ?_)
    have inside := List.mem_range.mp member
    have := block.count_le
    exact same _ (by omega) (by omega)
  · rw [treeOf_constant tag, treeOf_constant tag]
  · rw [treeOf_number tag, treeOf_number tag]

theorem IsTerm.treeOf_keeps (term : h.IsTerm lo count c) (keeps : Keeps lo h k) :
    k.treeOf symbols v c = h.treeOf symbols v c :=
  term.treeOf_congr (fun _ _ block => keeps.block block) fun _ _ _ => rfl

theorem Leads.treeOf (closed : h.Closed lo count) (consistent : h.Consistent symbols lo v)
    (term : h.IsTerm lo count c) (leads : h.Leads c x) :
    h.treeOf symbols v c = h.treeOf symbols v x := by
  induction leads with
  | value _ => rfl
  | root _ _ => rfl
  | @step c next x isVar found _ _ ih =>
    obtain ⟨low, d, found', element⟩ := term.var isVar
    obtain rfl : next = d := Option.some.inj (found.symm.trans found')
    rw [treeOf_var isVar, consistent _ _ low found element]
    exact ih (closed _ _ low found element).1

theorem Grown.append {cs : List Cell} (e : k.toList = h.toList ++ cs) : h.Grown k :=
  fun _ _ found => .inl (get?_append_left e found)

/-- A valuation that solves more solves what was there before. -/
theorem Grown.consistent (grown : h.Grown k) (keeps : Keeps lo h k) (closed : h.Closed lo count)
    (consistent : k.Consistent symbols lo v) : h.Consistent symbols lo v := by
  intro a c low found element
  have term := (closed a c low found element).1
  rcases grown a c found with kept | rfl
  · rw [consistent a c low kept element, term.treeOf_keeps keeps]
  · have bound := lt_top_of_get? found
    have limit := h.top_lt
    rw [treeOf_var (Cell.var_isVar a), Cell.addr_var (by omega)]

end Heap

end HornMachine
