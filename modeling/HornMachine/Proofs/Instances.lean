import HornMachine.Proofs.CodeTrees
import HornMachine.Proofs.Templates

/-!
# Heads and goals as trees

Read in a copy of its code, the head and the goals of a clause stand for the trees
of the elements they were made from. So a copy that is solved, with goals that
stand for derivable trees, is an instance of the rule, and its head stands for a
derivable tree as well.
-/
namespace HornMachine

variable {t : Symbols} {es : List Element} {code : ClauseCode} {h k : Heap} {lo n o : Nat}
  {v : Nat → Term} {σ : String → Term} {e head : Element} {body : List Element} {g : Cell}
  {rules : List Sentence} {s : Sentence}

/-- The rules are made from the sentences `rules`, and their symbols are those of
`t`. -/
structure Codes.MadeFrom (w : Codes) (t : Symbols) (rules : List Sentence) : Prop where
  sound : t.Sound
  count : w.count = t.count
  rendered : List.Forall₂ (fun s code => ∃ es, s.expandLists = .ok es ∧ Renders t es code) rules
    w.rules

namespace Codes.MadeFrom

variable {w : Codes}

theorem sentence (made : w.MadeFrom t rules) {id : Nat} (rule : w.rules[id]? = some code) :
    ∃ s ∈ rules, ∃ es, s.expandLists = .ok es ∧ Renders t es code :=
  exists_left made.rendered (List.mem_of_getElem? rule)

theorem exists_rule (made : w.MadeFrom t rules) (member : s ∈ rules) :
    ∃ (id : Nat) (code : ClauseCode) (es : List Element), w.rules[id]? = some code ∧
      s.expandLists = .ok es ∧ Renders t es code := by
  obtain ⟨code, listed, es, expanded, renders⟩ := exists_left made.rendered.flip member
  obtain ⟨id, rule⟩ := List.mem_iff_getElem?.mp listed
  exact ⟨id, code, es, rule, expanded, renders⟩

end Codes.MadeFrom

namespace Renders

theorem head_eq (renders : Renders t es code) : code.head = .structRef 0 := by
  obtain ⟨head, body, rfl, goal⟩ := renders.head
  rw [ClauseCode.head, renders.code, Layout.goals_code body goal, List.headD_cons]

theorem of_mem_body (renders : Renders t es code) (member : g ∈ code.body) :
    ∃ head body o e, es = head :: body ∧ BlockAt es o e ∧ e ∈ body ∧ isEquation e = false ∧
      g = .structRef o := by
  obtain ⟨head, body, rfl, goal⟩ := renders.head
  have goals := Layout.goals_code (t := t) body goal
  rw [ClauseCode.body, renders.code, goals, List.tail_cons, List.mem_map] at member
  obtain ⟨o, placed, rfl⟩ := member
  obtain ⟨o', e, block, plain, rfl⟩ := Layout.mem_goalsFrom.mp placed
  exact ⟨head, body, _, e, rfl, block.cons head, block.mem, plain, rfl⟩

theorem exists_goal (renders : Renders t (head :: body) code) (member : e ∈ body)
    (goal : isEquation e = false) :
    ∃ o, BlockAt (head :: body) o e ∧ Cell.structRef o ∈ code.body := by
  obtain ⟨first, rest, same, start⟩ := renders.head
  obtain ⟨rfl, rfl⟩ := List.cons.inj same
  obtain ⟨o, block⟩ := exists_blockAt member
  refine ⟨_, block.cons head, ?_⟩
  rw [ClauseCode.body, renders.code, Layout.goals_code body start, List.tail_cons]
  exact List.mem_map_of_mem (Layout.mem_goalsFrom.mpr ⟨o, e, block, goal, rfl⟩)

theorem addr_goal (renders : Renders t es code) (small : code.size < 2 ^ 60)
    (block : BlockAt es o e) : (Cell.structRef o).addr = o := by
  have below := block.end_le t
  rw [renders.size_eq] at small
  exact Cell.addr_structRef (by omega)

theorem goal_tree (renders : Renders t es code) (copied : code.Copied n h k) (cut : code.Cut n)
    (reads : Reads es h.top v σ) (block : BlockAt es o e) (goal : isEquation e = false)
    (inside : o < n) :
    k.treeOf t v ((Cell.structRef o).relocate h.top) = Element.tree σ e := by
  have target := renders.hasBlock block
  have small := copied.small target.1 inside
  have whole := copied.hasBlock target ((cut _ _ inside target.1).2 _ target)
  have addr : (Cell.structRef (o + h.top)).addr = h.top + o := by
    rw [Cell.addr_structRef small, Nat.add_comm]
  rw [Cell.relocate_structRef small,
    Heap.treeOf_block (Cell.tag_structRef _) (by rw [addr]; exact whole), addr,
    reads.block block, contentOf_of_not_equation goal]

theorem head_tree (renders : Renders t (head :: body) code) (copied : code.Copied n h k)
    (cut : code.Cut n) (reads : Reads (head :: body) h.top v σ) (inside : 0 < n) :
    k.treeOf t v (code.head.relocate h.top) = Element.tree σ head := by
  obtain ⟨first, rest, same, goal⟩ := renders.head
  obtain ⟨rfl, rfl⟩ := List.cons.inj same
  rw [renders.head_eq]
  exact renders.goal_tree copied cut reads (.head head body) goal inside

theorem body_tree (renders : Renders t (head :: body) code)
    (copied : code.Copied code.size h k) (cut : code.Cut code.size)
    (reads : Reads (head :: body) h.top v σ) (member : g ∈ code.body) :
    ∃ e ∈ body, isEquation e = false ∧
      k.treeOf t v (g.relocate h.top) = Element.tree σ e := by
  obtain ⟨head', body', o, e, same, block, inside, goal, rfl⟩ := renders.of_mem_body member
  obtain ⟨rfl, rfl⟩ := List.cons.inj same
  have bound := (renders.hasBlock block).lt_size
  exact ⟨e, inside, goal, renders.goal_tree copied cut reads block goal (by omega)⟩

/-- The head of an instance with derivable goals is derivable. -/
theorem derivable_head (renders : Renders t es code) (member : s ∈ rules)
    (expanded : s.expandLists = .ok es) (sound : t.Sound)
    (copied : code.Copied code.size h k) (cut : code.Cut code.size) (low : lo ≤ h.top)
    (consistent : k.Consistent t lo v)
    (goals : ∀ g ∈ code.body, Derivable rules (k.treeOf t v (g.relocate h.top))) :
    Derivable rules (k.treeOf t v (code.head.relocate h.top)) := by
  obtain ⟨head, body, rfl, -⟩ := renders.head
  have reads := renders.reads sound copied cut low consistent
  have positive : 0 < code.size := by
    have := (renders.hasBlock (.head head body)).lt_size
    omega
  rw [renders.head_tree copied cut reads positive]
  refine .rule member expanded ?_ ?_
  · intro e inside
    exact renders.solves sound copied cut low consistent (List.mem_cons_of_mem _ inside)
  · intro e inside goal
    obtain ⟨o, block, listed⟩ := renders.exists_goal inside goal
    have bound := (renders.hasBlock block).lt_size
    have derived := goals _ listed
    rwa [renders.goal_tree copied cut reads block goal (by omega)] at derived

end Renders

end HornMachine
