import HornMachine.Proofs.Blocks

/-!
# Code made from a layout

The cells of the code say what the words of the sentence say: constants and
numbers stand for themselves, a variable with an equation refers to the block of
that equation, and any other variable to its first mention. So the code is closed
in itself, and so is the part of it that a copy of the head needs.
-/
namespace HornMachine

namespace Layout

variable {t : Symbols} {es : List Element} {o a i : Nat} {e : Element} {w : Word}
  {name : String}

theorem anchorOf?_eq_some {f : Nat} (anchored : (layoutOf t es).anchorOf? name = some f) :
    ∃ ws, BlockAt es f (.holds name :: ws) := by
  unfold anchorOf? at anchored
  obtain ⟨m, found, rfl⟩ := Option.map_eq_some_iff.mp anchored
  have which := Array.find?_some found
  simp only [Bool.and_eq_true, decide_eq_true_eq] at which
  obtain ⟨o, e, block, member⟩ := mem_mentions.mp (Array.mem_of_find?_eq_some found)
  rcases mem_elementMentions.mp member with ⟨-, ⟨ws, rfl⟩, addr⟩ | ⟨free, -⟩
  · exact ⟨ws, by rw [addr, ← which.2]; exact block⟩
  · simp [which.1] at free

theorem exists_anchorOf? {ws : List Word} (block : BlockAt es o (.holds name :: ws)) :
    ∃ f, (layoutOf t es).anchorOf? name = some f := by
  have member : ⟨name, o, true⟩ ∈ (layoutOf t es).mentions :=
    mem_mentions.mpr ⟨o, _, block, mem_elementMentions.mpr (.inl ⟨rfl, ⟨ws, rfl⟩, rfl⟩)⟩
  cases found : (layoutOf t es).anchorOf? name with
  | some f => exact ⟨f, rfl⟩
  | none =>
    unfold anchorOf? at found
    rw [Option.map_eq_none_iff, Array.find?_eq_none] at found
    exact absurd (found _ member) (by simp)

/-- The names with an equation, once for each equation. -/
def anchorNames (l : Layout) : List String :=
  (l.mentions.toList.filter (·.anchor)).map (·.name)

variable {l : Layout}

/-- The name that is reported has two equations. -/
theorem count_of_ambiguous? (reported : l.ambiguous? = some name) :
    1 < l.anchorNames.count name := by
  unfold Layout.ambiguous? at reported
  split at reported
  · cases reported
  · obtain ⟨m, found, rfl⟩ := Option.map_eq_some_iff.mp reported
    have listed := Array.find?_some found
    simp only [List.contains_iff_mem, ambiguousNames, List.mem_filter, decide_eq_true_eq]
      at listed
    exact listed.2

/-- When none is reported, every name has one equation at most. -/
theorem nodup_of_ambiguous? (unambiguous : l.ambiguous? = none) : l.anchorNames.Nodup := by
  have none : l.ambiguousNames = [] := by
    unfold Layout.ambiguous? at unambiguous
    split at unambiguous
    · next none => exact none
    · next names other =>
      rw [Option.map_eq_none_iff, Array.find?_eq_none] at unambiguous
      rw [List.eq_nil_iff_forall_not_mem]
      intro name member
      have listed := member
      simp only [Layout.ambiguousNames, List.mem_filter, List.mem_map] at listed
      obtain ⟨⟨m, ⟨there, -⟩, rfl⟩, -⟩ := listed
      exact absurd (unambiguous m (Array.mem_toList_iff.mp there)) (by simpa using member)
  rw [List.nodup_iff_count_le_one]
  intro name
  by_cases listed : name ∈ l.anchorNames
  · have kept := List.filter_eq_nil_iff.mp none name listed
    simpa [anchorNames] using kept
  · rw [List.count_eq_zero_of_not_mem listed]
    exact Nat.zero_le 1

theorem ambiguous?_eq_none : l.ambiguous? = none ↔ l.anchorNames.Nodup := by
  refine ⟨nodup_of_ambiguous?, fun once => ?_⟩
  cases reported : l.ambiguous? with
  | none => rfl
  | some name =>
    have twice := count_of_ambiguous? reported
    exact absurd twice (Nat.not_lt.mpr (List.nodup_iff_count_le_one.mp once name))

theorem anchor_unique {f : Nat} {ws ws' : List Word}
    (unambiguous : (layoutOf t es).ambiguous? = none)
    (block : BlockAt es o (.holds name :: ws)) (block' : BlockAt es f (.holds name :: ws')) :
    o = f := by
  have mention {o : Nat} {ws : List Word} (block : BlockAt es o (.holds name :: ws)) :
      ⟨name, o, true⟩ ∈ (layoutOf t es).mentions.toList.filter (·.anchor) := by
    rw [List.mem_filter, Array.mem_toList_iff]
    exact ⟨mem_mentions.mpr ⟨o, _, block, mem_elementMentions.mpr (.inl ⟨rfl, ⟨ws, rfl⟩, rfl⟩)⟩,
      rfl⟩
  have same := List.inj_on_of_nodup_map (nodup_of_ambiguous? unambiguous) (mention block)
    (mention block') rfl
  exact congrArg Mention.addr same

theorem mem_mentions_var (block : BlockAt es o e) (found : (contentOf e)[i]? = some (.var name)) :
    ⟨name, o + 1 + i, false⟩ ∈ (layoutOf t es).mentions :=
  mem_mentions.mpr ⟨o, e, block, mem_elementMentions.mpr (.inr ⟨rfl, i, found, rfl⟩)⟩

/-- A name without an equation has a first mention below all others. -/
theorem exists_firstOf? (block : BlockAt es o e) (found : (contentOf e)[i]? = some (.var name))
    (free : (layoutOf t es).anchorOf? name = none) :
    ∃ f, (layoutOf t es).firstOf? name = some f ∧ f ≤ o + 1 + i ∧
      ∃ o' e' i', BlockAt es o' e' ∧ (contentOf e')[i']? = some (.var name) ∧
        f = o' + 1 + i' := by
  have member := mem_mentions_var (t := t) block found
  unfold firstOf?
  cases first : (layoutOf t es).mentions.find? fun m => m.name = name with
  | none =>
    rw [Array.find?_eq_none] at first
    exact absurd (first _ member) (by simp)
  | some m =>
    refine ⟨m.addr, rfl, ?_, ?_⟩
    · have list : (layoutOf t es).mentions = (mentionsFrom 0 es).toArray := rfl
      rw [list, List.find?_toArray, List.find?_eq_some_iff_append] at first
      obtain ⟨-, before, after, split, skipped⟩ := first
      rw [list, List.mem_toArray, split] at member
      have ascending := ascending_mentionsFrom 0 es
      rw [split] at ascending
      rcases List.mem_append.mp member with early | late
      · simpa using skipped _ early
      · rcases List.mem_cons.mp late with rfl | later
        · exact Nat.le_refl _
        · have above := (List.pairwise_cons.mp (List.pairwise_append.mp ascending).2.1).1 _ later
          exact Nat.le_of_lt above
    · have which := Array.find?_some first
      simp only [decide_eq_true_eq] at which
      have member := Array.mem_of_find?_eq_some first
      obtain ⟨o', e', block', member'⟩ := mem_mentions.mp member
      rcases mem_elementMentions.mp member' with ⟨anchor, -, -⟩ | ⟨-, i', found', addr⟩
      · unfold anchorOf? at free
        rw [Option.map_eq_none_iff, Array.find?_eq_none] at free
        exact absurd (free m member) (by simp [anchor, which])
      · exact ⟨o', e', i', block', which ▸ found', addr⟩

/-! ### Cells -/

/-- The cell of a slot at `a`. -/
def slotCell (l : Layout) (a : Nat) : Slot → Cell
  | .fixed c => c
  | .variable name => l.resolve name a

theorem getElem?_cells (l : Layout) (a : Nat) :
    l.cells[a]? = (l.slots[a]?).map (l.slotCell a) := by
  rw [cells, Array.getElem?_mapIdx]
  cases l.slots[a]? with
  | none => rfl
  | some slot => cases slot <;> rfl

theorem header_cell (block : BlockAt es o e) (t : Symbols) :
    (layoutOf t es).cells[o]? = some (.header (contentOf e).length) := by
  have slot := block.slot t (i := 0) (Nat.succ_pos _)
  rw [Nat.add_zero] at slot
  rw [getElem?_cells, slot]
  rfl

theorem word_cell (block : BlockAt es o e) (t : Symbols) (found : (contentOf e)[i]? = some w) :
    (layoutOf t es).cells[o + 1 + i]? =
      some ((layoutOf t es).slotCell (o + 1 + i) (Slot.of t w)) := by
  have short := (List.getElem?_eq_some_iff.mp found).choose
  have slot := block.slot t (i := i + 1) (by unfold blockSize; omega)
  rw [getElem?_cells, show o + 1 + i = o + (i + 1) by omega, slot, blockOf,
    List.getElem?_cons_succ, List.getElem?_map, found]
  rfl

/-- What a cell of the code is. -/
theorem cell_cases {c : Cell} (found : (layoutOf t es).cells[a]? = some c) :
    (∃ e, BlockAt es a e ∧ c = .header (contentOf e).length) ∨
    ∃ o e i w, BlockAt es o e ∧ (contentOf e)[i]? = some w ∧ a = o + 1 + i ∧
      c = (layoutOf t es).slotCell a (Slot.of t w) := by
  have inside : a < (layoutOf t es).slots.size := by
    rw [getElem?_cells] at found
    obtain ⟨slot, at', -⟩ := Option.map_eq_some_iff.mp found
    exact (Array.getElem?_eq_some_iff.mp at').choose
  obtain ⟨o, e, i, block, short, rfl⟩ := exists_block inside
  cases i with
  | zero =>
    rw [Nat.add_zero, header_cell block t, Option.some.injEq] at found
    exact .inl ⟨e, block, found.symm⟩
  | succ i =>
    have short : i < (contentOf e).length := by
      unfold blockSize at short
      omega
    have word : (contentOf e)[i]? = some (contentOf e)[i] := List.getElem?_eq_getElem short
    have same : o + (i + 1) = o + 1 + i := by omega
    rw [same, word_cell block t word, Option.some.injEq] at found
    exact .inr ⟨o, e, i, _, block, word, same, by rw [same, ← found]⟩

/-- The cell of a variable: a reference to its equation, or to its first mention. -/
theorem resolve_cases (block : BlockAt es o e) (found : (contentOf e)[i]? = some (.var name)) :
    (∃ f ws, (layoutOf t es).anchorOf? name = some f ∧ BlockAt es f (.holds name :: ws) ∧
      (layoutOf t es).resolve name (o + 1 + i) = .structRef f) ∨
    ∃ f, (layoutOf t es).anchorOf? name = none ∧ (layoutOf t es).firstOf? name = some f ∧
      f ≤ o + 1 + i ∧ (layoutOf t es).cells[f]? = some (.var f) ∧
      (layoutOf t es).resolve name (o + 1 + i) =
        if f = o + 1 + i then .var f else .varRef f := by
  cases anchored : (layoutOf t es).anchorOf? name with
  | some f =>
    obtain ⟨ws, equation⟩ := anchorOf?_eq_some anchored
    exact .inl ⟨f, ws, rfl, equation, by simp [resolve, anchored]⟩
  | none =>
    obtain ⟨f, first, below, o', e', i', block', found', rfl⟩ :=
      exists_firstOf? block found anchored
    refine .inr ⟨_, rfl, first, below, ?_, ?_⟩
    · rw [word_cell block' t found']
      simp [Slot.of, slotCell, resolve, anchored, first]
    · simp only [resolve, anchored, first]
      split
      · next same => rw [same]
      · rfl

theorem tag_resolve_ne (l : Layout) (name : String) (a : Nat) {tag : Tag}
    (value : tag = .constant ∨ tag = .number) : (l.resolve name a).tag ≠ tag := by
  have role : (l.resolve name a).tag = .structRef ∨ (l.resolve name a).tag = .unboundVar ∨
      (l.resolve name a).tag = .varRef := by
    unfold resolve
    split
    · exact .inl (Cell.tag_structRef _)
    · split
      · split
        · exact .inr (.inl (Cell.tag_var _))
        · exact .inr (.inr (Cell.tag_varRef _))
      · exact .inr (.inl (Cell.tag_var _))
  rcases role with role | role | role <;> rcases value with rfl | rfl <;> rw [role] <;> decide

theorem isVar_mention (f a : Nat) :
    (if f = a then Cell.var f else Cell.varRef f).isVar = true := by
  split
  · exact Cell.var_isVar f
  · exact Cell.isVar_of_tag (.inr (Cell.tag_varRef f))

theorem addr_mention {f : Nat} (small : f < 2 ^ 60) (a : Nat) :
    (if f = a then Cell.var f else Cell.varRef f).addr = f := by
  split
  · exact Cell.addr_var small
  · exact Cell.addr_varRef small

theorem size_code (l : Layout) : l.code.size = l.slots.size := by
  simp [ClauseCode.size, code, cells]

/-! ### The code is closed -/

/-- What the cell of a plain word at `a` is. -/
inductive WordCell (t : Symbols) (es : List Element) (a : Nat) : Cell → Prop
  | const {id : Nat} : id < t.count → WordCell t es a (.constant id)
  | number (n : Int) : WordCell t es a (.number n)
  | equation {f : Nat} {name : String} {ws : List Word} : BlockAt es f (.holds name :: ws) →
      WordCell t es a (.structRef f)
  | mention {f : Nat} : f ≤ a → (layoutOf t es).cells[f]? = some (.var f) →
      WordCell t es a (if f = a then .var f else .varRef f)

theorem wordCell (block : BlockAt es o e) (found : (contentOf e)[i]? = some w)
    (plain : w.Plain t) :
    WordCell t es (o + 1 + i) ((layoutOf t es).slotCell (o + 1 + i) (Slot.of t w)) := by
  cases w with
  | const name =>
    obtain ⟨id, interned⟩ := plain
    rw [Slot.of, interned]
    exact .const (Symbols.lt_count_of_lookup interned)
  | number n => exact .number n
  | var name =>
    rw [Slot.of, slotCell]
    rcases resolve_cases (t := t) block found with
      ⟨f, ws, -, equation, e⟩ | ⟨f, -, -, below, root, e⟩
    · rw [e]
      exact .equation equation
    · rw [e]
      exact .mention below root
  | holds _ => exact plain.elim
  | lists _ => exact plain.elim

theorem WordCell.isElement {c : Cell} (cell : WordCell t es a c) : c.IsElement := by
  cases cell with
  | const _ => exact Cell.isElement_of_tag (Cell.tag_constant _) (by decide) (by decide)
  | number _ => exact Cell.isElement_of_tag (Cell.tag_number _) (by decide) (by decide)
  | equation _ => exact Cell.isElement_of_tag (Cell.tag_structRef _) (by decide) (by decide)
  | mention _ _ =>
    split
    · exact Cell.isElement_of_tag (Cell.tag_var _) (by decide) (by decide)
    · exact Cell.isElement_of_tag (Cell.tag_varRef _) (by decide) (by decide)

theorem plain_cell_cases {c : Cell} (plain : ∀ w ∈ es.flatMap contentOf, w.Plain t)
    (found : (layoutOf t es).cells[a]? = some c) :
    (∃ e, BlockAt es a e ∧ c = .header (contentOf e).length) ∨ WordCell t es a c := by
  rcases cell_cases found with header | ⟨o, e, i, w, block, content, rfl, rfl⟩
  · exact .inl header
  · exact .inr (wordCell block content (plain w (block.word_mem content)))

theorem isElement_slotCell (block : BlockAt es o e) (found : (contentOf e)[i]? = some w)
    (plain : w.Plain t) : ((layoutOf t es).slotCell (o + 1 + i) (Slot.of t w)).IsElement :=
  (wordCell block found plain).isElement

theorem hasBlock (block : BlockAt es o e) (plain : ∀ w ∈ es.flatMap contentOf, w.Plain t) :
    (layoutOf t es).code.HasBlock o (contentOf e).length := by
  refine ⟨header_cell block t, fun i short => ?_⟩
  have word : (contentOf e)[i]? = some (contentOf e)[i] := List.getElem?_eq_getElem short
  exact ⟨_, word_cell block t word, isElement_slotCell block word (plain _ (block.word_mem word))⟩

theorem mem_goalsFrom : o ∈ goalsFrom a es ↔
    ∃ o' e, BlockAt es o' e ∧ isEquation e = false ∧ o = a + o' := by
  induction es generalizing a with
  | nil =>
    constructor
    · intro member
      simp [goalsFrom] at member
    · rintro ⟨o', e, ⟨before, after, split, -⟩, -⟩
      simp at split
  | cons e es ih =>
    have later : (∃ o' e', BlockAt (e :: es) o' e' ∧ isEquation e' = false ∧ o = a + o') ↔
        (isEquation e = false ∧ o = a) ∨
          ∃ o' e', BlockAt es o' e' ∧ isEquation e' = false ∧ o = a + blockSize e + o' := by
      constructor
      · rintro ⟨o', e', block, goal, rfl⟩
        rcases block.cons_inv with ⟨rfl, rfl⟩ | ⟨p, later, rfl⟩
        · exact .inl ⟨goal, rfl⟩
        · exact .inr ⟨p, e', later, goal, by omega⟩
      · rintro (⟨goal, rfl⟩ | ⟨p, e', later, goal, rfl⟩)
        · exact ⟨0, e, .head e es, goal, rfl⟩
        · exact ⟨_, e', later.cons e, goal, by omega⟩
    rw [later, goalsFrom]
    split
    · next equation => simp [ih, equation]
    · next goal => simp [ih, goal]

/-- The cells of a layout are closed in themselves, empty elements or not. -/
theorem bare_linked (small : (layoutOf t es).slots.size < 2 ^ 60)
    (plain : ∀ w ∈ es.flatMap contentOf, w.Plain t) :
    (layoutOf t es).code.bare.Linked t.count := by
  refine ⟨?_, ?_, ?_, nofun⟩
  · intro a c found isVar
    rcases plain_cell_cases plain found with ⟨e, -, rfl⟩ | cell
    · simp [Cell.isVar_iff] at isVar
    · cases cell with
      | const _ | number _ | equation _ => simp [Cell.isVar_iff] at isVar
      | @mention f below root =>
        have inside : f < (layoutOf t es).code.size := (Array.getElem?_eq_some_iff.mp root).choose
        rw [size_code] at inside
        rw [addr_mention (by omega)]
        exact ⟨below, root⟩
  · intro a c found tag
    rcases plain_cell_cases plain found with ⟨e, -, rfl⟩ | cell
    · simp at tag
    · cases cell with
      | const _ | number _ => simp at tag
      | mention _ _ => split at tag <;> simp at tag
      | equation block =>
        have inside := block.end_le t
        rw [Cell.addr_structRef (by omega)]
        exact ⟨_, hasBlock block plain⟩
  · intro a c found tag
    rcases plain_cell_cases plain found with ⟨e, -, rfl⟩ | cell
    · simp at tag
    · cases cell with
      | const known => exact ⟨_, known, rfl⟩
      | number _ | equation _ => simp at tag
      | mention _ _ => split at tag <;> simp at tag

theorem linked (small : (layoutOf t es).slots.size < 2 ^ 60)
    (plain : ∀ w ∈ es.flatMap contentOf, w.Plain t)
    (nonempty : [] ∉ es) : (layoutOf t es).code.Linked t.count := by
  have bare := bare_linked small plain
  refine ⟨bare.var, bare.ref, bare.const, ?_⟩
  intro g member
  obtain ⟨o, placed, rfl⟩ : ∃ o, o ∈ goalsFrom 0 es ∧ Cell.structRef o = g := by
    simpa [Layout.code, layoutOf] using member
  obtain ⟨o', e, block, goal, rfl⟩ := mem_goalsFrom.mp placed
  have address : o' < 2 ^ 60 := by
    have := block.end_le t
    omega
  rw [Nat.zero_add, Cell.addr_structRef address]
  have content := contentOf_of_not_equation goal
  cases e with
  | nil => exact absurd block.mem nonempty
  | cons w ws =>
    have whole := hasBlock block plain
    rw [content] at whole
    exact ⟨Cell.tag_structRef _, ws.length, whole⟩

theorem block_of_header {m : Nat} (small : (layoutOf t es).slots.size < 2 ^ 60)
    (plain : ∀ w ∈ es.flatMap contentOf, w.Plain t)
    (block : (layoutOf t es).code.HasBlock a m) :
    ∃ e, BlockAt es a e ∧ blockSize e = m + 1 := by
  rcases plain_cell_cases plain block.1 with ⟨e, at', same⟩ | cell
  · refine ⟨e, at', ?_⟩
    have bound : a + m < (layoutOf t es).slots.size := by
      simpa [size_code] using block.lt_size
    have bound' := at'.end_le t
    unfold blockSize at bound' ⊢
    have addr := congrArg Cell.addr same
    rw [Cell.addr_header (by omega), Cell.addr_header (by omega)] at addr
    omega
  · exact absurd (Cell.tag_header m) cell.isElement.1

theorem goals_code {head : Element} (body : List Element) (goal : isEquation head = false) :
    (layoutOf t (head :: body)).code.goals =
      .structRef 0 :: (goalsFrom (blockSize head) body).map Cell.structRef := by
  simp [code, layoutOf, goalsFrom, goal]

theorem neck_cases {head : Element} (body : List Element) (goal : isEquation head = false) :
    (layoutOf t (head :: body)).neck = (layoutOf t (head :: body)).slots.size ∨
      ∃ o e, BlockAt body o e ∧ isEquation e = false ∧
        (layoutOf t (head :: body)).neck = blockSize head + o := by
  unfold neck
  have goals : (layoutOf t (head :: body)).goals[1]? = (goalsFrom (blockSize head) body)[0]? := by
    simp [layoutOf, goalsFrom, goal]
  rw [goals]
  cases first : (goalsFrom (blockSize head) body)[0]? with
  | none => exact .inl rfl
  | some o =>
    obtain ⟨o', e, block, other, rfl⟩ := mem_goalsFrom.mp (List.mem_of_getElem? first)
    exact .inr ⟨o', e, block, other, rfl⟩

/-- The copy of the head is closed in itself. -/
theorem cut_headLen {head : Element} {body : List Element} (goal : isEquation head = false)
    (small : (layoutOf t (head :: body)).slots.size < 2 ^ 60)
    (plain : ∀ w ∈ (head :: body).flatMap contentOf, w.Plain t)
    (linked : (layoutOf t (head :: body)).code.Linked t.count) :
    (layoutOf t (head :: body)).code.Cut (layoutOf t (head :: body)).code.headLen := by
  unfold ClauseCode.headLen
  split
  · exact linked.cut_size
  · next closed =>
    intro a c before found
    constructor
    · intro ref
      by_contra outside
      refine closed ?_
      unfold ClauseCode.headReachesBody
      rw [List.any_eq_true]
      refine ⟨c, ?_, by simp [ref]; omega⟩
      refine List.mem_of_getElem? (i := a) ?_
      rw [List.getElem?_take, if_pos before, Array.getElem?_toList, found]
    · intro m block
      have whole := block.lt_size
      obtain ⟨e, at', size⟩ := block_of_header small plain block
      rcases neck_cases (t := t) body goal with
        last | ⟨o, e', next, -, start⟩
      · have neck : (layoutOf t (head :: body)).code.neck =
            (layoutOf t (head :: body)).code.size := last.trans (size_code _).symm
        omega
      · have neck : (layoutOf t (head :: body)).code.neck = blockSize head + o := start
        have apart := at'.disjoint (next.cons head) (by omega)
        omega

theorem neck_bounds {head : Element} (body : List Element) (goal : isEquation head = false) :
    0 < (layoutOf t (head :: body)).neck ∧
      (layoutOf t (head :: body)).neck ≤ (layoutOf t (head :: body)).slots.size := by
  have first := (BlockAt.head head body).end_le t
  have positive : 0 < blockSize head := Nat.succ_pos _
  rcases neck_cases (t := t) body goal with last | ⟨o, e, block, -, start⟩
  · omega
  · have bound := (block.cons head).end_le t
    omega

theorem headLen_le {head : Element} (body : List Element) (goal : isEquation head = false) :
    0 < (layoutOf t (head :: body)).code.headLen ∧
      (layoutOf t (head :: body)).code.headLen ≤ (layoutOf t (head :: body)).code.size := by
  have neck := neck_bounds (t := t) body goal
  have size := (layoutOf t (head :: body)).size_code
  unfold ClauseCode.headLen
  have same : (layoutOf t (head :: body)).code.neck = (layoutOf t (head :: body)).neck := rfl
  split <;> omega

end Layout

end HornMachine
