import HornMachine.Proofs.Instances
import HornMachine.Proofs.KeyFilter

/-!
# Keys as roots of trees

A key tells the root of the tree an element stands for, unless it is the
wildcard. The keys of a goal fit the elements of its tree under any consistent
valuation, and those of a head fit the elements of its instances. So a goal and an
instance of a head that are one tree have keys that admit each other: the filter
rules out no clause that is needed.
-/
namespace HornMachine

variable {t : Symbols} {h : Heap} {lo positions : Nat} {v : Nat → Term} {σ : String → Term}

/-- The key is the wildcard, or says what the root of the tree is. -/
inductive Key.Fits (t : Symbols) : Key → Term → Prop
  | any {x : Term} : Fits t .any x
  | constant {s : Nat} {name : String} : t.resolve s = some name →
      Fits t ⟨(Cell.constant s).word⟩ (.label name)
  | number {c : Cell} : c.tag = .number → Fits t ⟨c.word⟩ (.int c.payload)
  | array {xs : List Term} : Fits t ⟨(Cell.header xs.length).word⟩ (.array xs)

/-- Keys that fit one tree admit each other. -/
theorem Key.Fits.admits {l m : Key} {x : Term} (distinct : t.Distinct) (left : l.Fits t x)
    (right : m.Fits t x) : l.admits m = true := by
  cases left with
  | any => exact Key.admits_any_left m
  | constant known =>
    cases right with
    | any => exact Key.admits_any_right _
    | constant known' =>
      rw [Symbols.resolve_inj distinct known known']
      exact Key.admits_self _
  | @number c tag =>
    generalize tree : Term.int c.payload = x at right
    cases right with
    | any => exact Key.admits_any_right _
    | @number d tag' =>
      have same : c = d := Cell.eq_of_tag_payload (by rw [tag]; exact nofun)
        (tag.trans tag'.symm) (Term.int.inj tree)
      rw [same]
      exact Key.admits_self _
    | constant _ => cases tree
    | array => cases tree
  | array =>
    cases right with
    | any => exact Key.admits_any_right _
    | array => exact Key.admits_self _

/-- The key of a value fits the tree it stands for. -/
theorem Key.fits_ofCell {x : Cell} {l : Key} (sound : t.Sound)
    (term : h.IsTerm lo t.count x) (made : Key.ofCell h x = .ok l) :
    l.Fits t (h.treeOf t v x) := by
  unfold Key.ofCell at made
  rcases term.element.role with isVar | tag | tag | tag
  · rcases Cell.isVar_iff.mp isVar with tag | tag <;>
    · rw [tag] at made
      cases made
      exact .any
  · obtain ⟨-, n, block⟩ := term.ref tag
    rw [tag] at made
    obtain ⟨d, target, made⟩ := Halt.bind_eq_ok.mp made
    cases made
    obtain rfl : d = .header n :=
      Option.some.inj ((Heap.target_eq_ok.mp target).symm.trans block.1)
    rw [Heap.treeOf_block tag block]
    let xs := (List.range n).map fun i => v (x.addr + 1 + i)
    have fits : Key.Fits t ⟨(Cell.header xs.length).word⟩ (.array xs) := .array
    rwa [List.length_map, List.length_range] at fits
  · rw [tag] at made
    cases made
    obtain ⟨s, known, rfl⟩ := term.const tag
    obtain ⟨name, resolved⟩ := sound.exists_resolve known
    rw [Heap.treeOf_symbol resolved]
    exact .constant resolved
  · rw [tag] at made
    cases made
    rw [Heap.treeOf_number tag]
    exact .number tag

theorem Keys.fits_keyAt {a : Nat} {l : Key} (sound : t.Sound)
    (closed : h.Closed lo t.count) (consistent : h.Consistent t lo v) (low : lo ≤ a)
    (element : h.HasElement a) (made : Keys.keyAt h a = .ok l) : l.Fits t (v a) := by
  obtain ⟨c, x, found, ended, key⟩ := Keys.keyAt_eq_ok.mp made
  obtain ⟨c', found', element⟩ := element
  obtain rfl : c = c' := Option.some.inj (found.symm.trans found')
  have term := (closed a c low found element).1
  have leads := Heap.Leads.of_deref ended
  rw [consistent a c low found element, leads.treeOf closed consistent term]
  exact Key.fits_ofCell sound (leads.term closed term) key

namespace Keys

/-- Every key fits the tree at its position. -/
def Fits (t : Symbols) (keys : Keys) (xs : List Term) : Prop :=
  ∀ i : Fin maxPositions, keys.get i = .any ∨ ∃ x, xs[i.val]? = some x ∧ (keys.get i).Fits t x

theorem Fits.admits {keys keys' : Keys} {xs : List Term} (distinct : t.Distinct)
    (left : keys.Fits t xs) (right : keys'.Fits t xs) : keys.admits keys' = true := by
  rw [Keys.admits, decide_eq_true_eq]
  intro i
  rcases left i with any | ⟨x, found, fits⟩
  · rw [any]
    exact Key.admits_any_left _
  rcases right i with any | ⟨y, found', fits'⟩
  · rw [any]
    exact Key.admits_any_right _
  · obtain rfl : x = y := Option.some.inj (found.symm.trans found')
    exact fits.admits distinct fits'

theorem fits_ofRef {goal : Cell} {keys : Keys} (sound : t.Sound)
    (closed : h.Closed lo t.count) (consistent : h.Consistent t lo v)
    (term : h.IsTerm lo t.count goal) (tag : goal.tag = .structRef)
    (made : ofRef h goal positions = .ok keys) :
    ∃ xs, h.treeOf t v goal = .array xs ∧ keys.Fits t xs := by
  obtain ⟨low, n, block⟩ := term.ref tag
  refine ⟨_, Heap.treeOf_block tag block, fun i => ?_⟩
  have each := (ofRef_eq_ok block).mp made i
  split at each
  · next inside =>
    have short : i.val < n := by omega
    refine .inr ⟨v (goal.addr + 1 + i), ?_, ?_⟩
    · rw [List.getElem?_map, List.getElem?_range short]
      rfl
    · exact fits_keyAt sound closed consistent (by omega) (block.2 i short) each
  · exact .inl each

end Keys

namespace Renders

variable {es : List Element} {code : ClauseCode} {o i : Nat} {e head : Element}
  {body : List Element} {w : Word}

/-- The key of a word fits the tree of the word. -/
theorem fits_keyAt (renders : Renders t es code) (sound : t.Sound)
    (small : code.size < 2 ^ 60) (solved : ∀ e ∈ es, Element.Solves σ e)
    (block : BlockAt es o e) (found : (contentOf e)[i]? = some w) :
    (code.keyAt (o + 1 + i)).Fits t (w.tree σ) := by
  have cell := renders.cell block found
  have plain := renders.word_plain block found
  unfold ClauseCode.keyAt
  rw [cell]
  dsimp only
  cases w with
  | const name =>
    obtain ⟨id, known⟩ := plain
    rw [Slot.of, known, Option.getD_some, Layout.slotCell, Cell.tag_constant]
    exact .constant (sound.lookup_eq_some.mp known)
  | number m =>
    obtain ⟨lower, upper⟩ := renders.number m (block.word_mem found)
    have payload : (Cell.number m).payload = m := Cell.payload_make (by omega) upper
    rw [Slot.of, Layout.slotCell, Cell.tag_number]
    have fits := Key.Fits.number (t := t) (Cell.tag_number m)
    rwa [payload] at fits
  | var name =>
    rw [Slot.of, Layout.slotCell]
    rcases Layout.resolve_cases (t := t) block found with
      ⟨f, ws, -, equation, same⟩ | ⟨f, -, -, -, -, same⟩
    · have value : σ name = Element.tree σ ws := solved _ equation.mem
      have target := renders.hasBlock equation
      have bound := target.lt_size
      have fits : Key.Fits t ⟨(Cell.header (ws.map (Word.tree σ)).length).word⟩
        (.array (ws.map (Word.tree σ))) := .array
      rw [List.length_map] at fits
      rw [same, Cell.tag_structRef, Cell.addr_structRef (by omega), target.1, Word.tree, value]
      exact fits
    · have isVar := Layout.isVar_mention f (o + 1 + i)
      rw [← same] at isVar
      rcases Cell.isVar_iff.mp isVar with tag | tag <;>
      · rw [tag]
        exact .any
  | holds name => exact plain.elim
  | lists name => exact plain.elim

/-- The keys of a head fit the elements of its instances. -/
theorem fits_keys (renders : Renders t (head :: body) code) (sound : t.Sound)
    (small : code.size < 2 ^ 60) (solved : ∀ e ∈ body, Element.Solves σ e) (positions : Nat) :
    (code.keys code.head positions).Fits t (head.map (Word.tree σ)) := by
  obtain ⟨first, rest, same, goal⟩ := renders.head
  obtain ⟨rfl, rfl⟩ := List.cons.inj same
  have block := BlockAt.head head body
  have target := renders.hasBlock block
  have bound := target.lt_size
  have content := contentOf_of_not_equation goal
  have solved : ∀ e ∈ head :: body, Element.Solves σ e :=
    List.forall_mem_cons.mpr ⟨Element.solves_of_not_equation σ goal, solved⟩
  intro i
  have entry : (code.keys code.head positions).get i =
      if i.val < min (((code.cells[code.head.addr]?).map (·.addr)).getD 0) positions
      then code.keyAt (code.head.addr + 1 + i) else .any := Vector.getElem_ofFn i.isLt
  rw [renders.head_eq, renders.addr_goal small block, target.1, Option.map_some,
    Option.getD_some, Cell.addr_header (by omega)] at entry
  split at entry
  · next inside =>
    rw [content] at inside
    have short : i.val < head.length := by omega
    have found : (contentOf head)[i.val]? = some head[i.val] := by
      rw [content]
      exact List.getElem?_eq_getElem short
    refine .inr ⟨head[i.val].tree σ, ?_, ?_⟩
    · rw [List.getElem?_map, List.getElem?_eq_getElem short]
      rfl
    · rw [renders.head_eq, entry]
      exact renders.fits_keyAt sound small solved block found
  · exact .inl (by rw [renders.head_eq]; exact entry)

end Renders

end HornMachine
