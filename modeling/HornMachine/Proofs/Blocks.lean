import HornMachine.Proofs.Layouts
import HornMachine.Proofs.LinkedCode

/-!
# The code of a layout

The blocks of a layout lie one behind the other, and every address belongs to one
of them. Mentions ascend, so the first mention of a name is its lowest, and a name
with an equation resolves to the block of that equation. Hence the code of a
layout is closed in itself.
-/
namespace HornMachine

/-- The block of the element `e` starts at `o`. -/
def BlockAt (es : List Element) (o : Nat) (e : Element) : Prop :=
  ∃ before after, es = before ++ e :: after ∧ o = (before.map blockSize).sum

variable {t : Symbols} {es : List Element} {o a i : Nat} {e : Element} {w : Word}

theorem BlockAt.mem (block : BlockAt es o e) : e ∈ es := by
  obtain ⟨before, after, rfl, -⟩ := block
  simp

theorem BlockAt.word_mem (block : BlockAt es o e) (found : (contentOf e)[i]? = some w) :
    w ∈ es.flatMap contentOf :=
  List.mem_flatMap.mpr ⟨e, block.mem, List.mem_of_getElem? found⟩

theorem BlockAt.head (e : Element) (es : List Element) : BlockAt (e :: es) 0 e :=
  ⟨[], es, rfl, rfl⟩

theorem BlockAt.cons (e' : Element) (block : BlockAt es o e) :
    BlockAt (e' :: es) (blockSize e' + o) e := by
  obtain ⟨before, after, rfl, rfl⟩ := block
  exact ⟨e' :: before, after, rfl, by simp⟩

theorem BlockAt.cons_inv {e' : Element} (block : BlockAt (e' :: es) o e) :
    (o = 0 ∧ e = e') ∨ ∃ o', BlockAt es o' e ∧ o = blockSize e' + o' := by
  obtain ⟨before, after, split, rfl⟩ := block
  cases before with
  | nil =>
    obtain ⟨rfl, rfl⟩ := List.cons.inj split
    exact .inl ⟨rfl, rfl⟩
  | cons b before =>
    obtain ⟨rfl, rfl⟩ := List.cons.inj split
    exact .inr ⟨_, ⟨before, after, rfl, rfl⟩, by simp⟩

theorem exists_blockAt (member : e ∈ es) : ∃ o, BlockAt es o e := by
  obtain ⟨before, after, split⟩ := List.append_of_mem member
  exact ⟨_, before, after, split, rfl⟩

theorem BlockAt.disjoint {o' : Nat} {e' : Element} (block : BlockAt es o e)
    (block' : BlockAt es o' e') (lt : o < o') : o + blockSize e ≤ o' := by
  induction es generalizing o o' with
  | nil =>
    obtain ⟨before, after, split, -⟩ := block
    simp at split
  | cons b es ih =>
    rcases block'.cons_inv with ⟨rfl, -⟩ | ⟨p', later', rfl⟩
    · exact absurd lt (Nat.not_lt_zero o)
    · rcases block.cons_inv with ⟨rfl, rfl⟩ | ⟨p, later, rfl⟩
      · omega
      · have := ih later later' (by omega)
        omega

theorem slots_size (t : Symbols) (es : List Element) :
    (layoutOf t es).slots.size = (es.map blockSize).sum := by
  induction es with
  | nil => rfl
  | cons e es ih =>
    simp only [layoutOf, List.size_toArray] at ih
    simp [layoutOf, ih]

theorem BlockAt.getElem?_flatMap {α : Type} {f : Element → List α}
    (sizes : ∀ e, (f e).length = blockSize e) (block : BlockAt es o e) (inside : i < blockSize e) :
    (es.flatMap f)[o + i]? = (f e)[i]? := by
  obtain ⟨before, after, rfl, rfl⟩ := block
  have size : (before.flatMap f).length = (before.map blockSize).sum := by
    simp [sizes]
  rw [List.flatMap_append, List.flatMap_cons, List.getElem?_append_right (by omega), size,
    Nat.add_sub_cancel_left, List.getElem?_append_left (by rwa [sizes])]

theorem BlockAt.slot (block : BlockAt es o e) (t : Symbols) (inside : i < blockSize e) :
    (layoutOf t es).slots[o + i]? = (blockOf t e)[i]? := by
  simp only [layoutOf, List.getElem?_toArray]
  exact block.getElem?_flatMap (length_blockOf t) inside

theorem BlockAt.unique {e' : Element} (block : BlockAt es o e) (block' : BlockAt es o e') :
    e = e' := by
  induction es generalizing o with
  | nil =>
    obtain ⟨before, after, split, -⟩ := block
    simp at split
  | cons b es ih =>
    have positive : 0 < blockSize b := Nat.succ_pos _
    rcases block.cons_inv with ⟨rfl, rfl⟩ | ⟨p, later, rfl⟩
    · rcases block'.cons_inv with ⟨-, rfl⟩ | ⟨p, -, same⟩
      · rfl
      · omega
    · rcases block'.cons_inv with ⟨same, -⟩ | ⟨p', later', same⟩
      · omega
      · obtain rfl : p = p' := by omega
        exact ih later later'

theorem BlockAt.end_le (block : BlockAt es o e) (t : Symbols) :
    o + blockSize e ≤ (layoutOf t es).slots.size := by
  obtain ⟨before, after, rfl, rfl⟩ := block
  rw [slots_size]
  simp

theorem exists_block (inside : a < (layoutOf t es).slots.size) :
    ∃ o e i, BlockAt es o e ∧ i < blockSize e ∧ a = o + i := by
  induction es generalizing a with
  | nil => simp [layoutOf] at inside
  | cons e es ih =>
    rw [slots_size] at inside ih
    rw [List.map_cons, List.sum_cons] at inside
    by_cases here : a < blockSize e
    · exact ⟨0, e, a, .head e es, here, by omega⟩
    · obtain ⟨o, e', i, block, short, same⟩ := ih (a := a - blockSize e) (by omega)
      exact ⟨_, e', i, block.cons e, short, by omega⟩

/-! ### Mentions -/

theorem mem_wordMentions {ws : List Word} {m : Mention} :
    m ∈ wordMentions a ws ↔
      m.anchor = false ∧ ∃ i, ws[i]? = some (.var m.name) ∧ m.addr = a + i := by
  induction ws generalizing a with
  | nil => simp [wordMentions]
  | cons w ws ih =>
    have later : (∃ i, (w :: ws)[i]? = some (Word.var m.name) ∧ m.addr = a + i) ↔
        (w = .var m.name ∧ m.addr = a) ∨
          ∃ i, ws[i]? = some (Word.var m.name) ∧ m.addr = a + 1 + i := by
      constructor
      · rintro ⟨i, found, addr⟩
        cases i with
        | zero => exact .inl ⟨by simpa using found, addr⟩
        | succ i => exact .inr ⟨i, by simpa using found, by omega⟩
      · rintro (⟨rfl, addr⟩ | ⟨i, found, addr⟩)
        · exact ⟨0, rfl, addr⟩
        · exact ⟨i + 1, by simpa using found, by omega⟩
    rw [later]
    cases w with
    | var name =>
      rw [wordMentions, List.mem_cons, ih]
      obtain ⟨n, b, anchor⟩ := m
      simp only [Mention.mk.injEq, Word.var.injEq]
      constructor
      · rintro (⟨rfl, rfl, rfl⟩ | ⟨free, rest⟩)
        · exact ⟨rfl, .inl ⟨rfl, rfl⟩⟩
        · exact ⟨free, .inr rest⟩
      · rintro ⟨rfl, ⟨rfl, rfl⟩ | rest⟩
        · exact .inl ⟨rfl, rfl, rfl⟩
        · exact .inr ⟨rfl, rest⟩
    | _ => simp [wordMentions, ih]

theorem mem_of_mem_contentOf {w : Word} (content : w ∈ contentOf e) : w ∈ e := by
  cases e with
  | nil => exact content
  | cons first ws =>
    cases first with
    | holds name => exact List.mem_cons_of_mem _ content
    | _ => exact content

theorem contentOf_of_not_equation (goal : isEquation e = false) : contentOf e = e := by
  cases e with
  | nil => rfl
  | cons w ws =>
    cases w with
    | holds name => cases goal
    | _ => rfl

theorem mem_elementMentions {m : Mention} :
    m ∈ elementMentions a e ↔
      (m.anchor = true ∧ (∃ ws, e = .holds m.name :: ws) ∧ m.addr = a) ∨
      (m.anchor = false ∧ ∃ i, (contentOf e)[i]? = some (.var m.name) ∧ m.addr = a + 1 + i) := by
  have plain (goal : isEquation e = false)
      (mentions : elementMentions a e = wordMentions (a + 1) e) :
      m ∈ elementMentions a e ↔
        (m.anchor = true ∧ (∃ ws, e = .holds m.name :: ws) ∧ m.addr = a) ∨
        (m.anchor = false ∧ ∃ i, (contentOf e)[i]? = some (.var m.name) ∧
          m.addr = a + 1 + i) := by
    rw [mentions, mem_wordMentions, contentOf_of_not_equation goal]
    constructor
    · exact .inr
    · rintro (⟨-, ⟨ws, rfl⟩, -⟩ | rest)
      · cases goal
      · exact rest
  cases e with
  | nil => exact plain rfl rfl
  | cons w ws =>
    cases w with
    | holds name =>
      rw [elementMentions, List.mem_cons, mem_wordMentions]
      obtain ⟨n, b, anchor⟩ := m
      simp only [Mention.mk.injEq, List.cons.injEq, Word.holds.injEq]
      constructor
      · rintro (⟨rfl, rfl, rfl⟩ | rest)
        · exact .inl ⟨rfl, ⟨ws, rfl, rfl⟩, rfl⟩
        · exact .inr rest
      · rintro (⟨rfl, ⟨ws', rfl, -⟩, rfl⟩ | rest)
        · exact .inl ⟨rfl, rfl, rfl⟩
        · exact .inr rest
    | _ => exact plain rfl rfl

theorem mem_mentionsFrom {m : Mention} :
    m ∈ mentionsFrom a es ↔ ∃ o e, BlockAt es o e ∧ m ∈ elementMentions (a + o) e := by
  induction es generalizing a with
  | nil =>
    constructor
    · intro member
      simp [mentionsFrom] at member
    · rintro ⟨o, e, ⟨before, after, split, -⟩, -⟩
      simp at split
  | cons e es ih =>
    rw [mentionsFrom, List.mem_append, ih]
    constructor
    · rintro (here | ⟨o, e', block, later⟩)
      · exact ⟨0, e, .head e es, here⟩
      · exact ⟨_, e', block.cons e, by rwa [← Nat.add_assoc]⟩
    · rintro ⟨o, e', block, member⟩
      rcases block.cons_inv with ⟨rfl, rfl⟩ | ⟨o', later, rfl⟩
      · exact .inl member
      · exact .inr ⟨o', e', later, by rwa [Nat.add_assoc]⟩

theorem mem_mentions {m : Mention} :
    m ∈ (layoutOf t es).mentions ↔ ∃ o e, BlockAt es o e ∧ m ∈ elementMentions o e := by
  simp only [layoutOf, List.mem_toArray, mem_mentionsFrom, Nat.zero_add]

theorem ascending_wordMentions (a : Nat) (ws : List Word) :
    (wordMentions a ws).Pairwise fun m n => m.addr < n.addr := by
  induction ws generalizing a with
  | nil => exact .nil
  | cons w ws ih =>
    cases w with
    | var name =>
      refine List.pairwise_cons.mpr ⟨?_, ih (a + 1)⟩
      intro m member
      obtain ⟨-, i, -, addr⟩ := mem_wordMentions.mp member
      dsimp only
      omega
    | _ => exact ih (a + 1)

theorem bounds_elementMentions {m : Mention} (member : m ∈ elementMentions a e) :
    a ≤ m.addr ∧ m.addr < a + blockSize e := by
  rcases mem_elementMentions.mp member with ⟨-, -, addr⟩ | ⟨-, i, found, addr⟩
  · unfold blockSize
    omega
  · have := (List.getElem?_eq_some_iff.mp found).choose
    unfold blockSize
    omega

theorem ascending_elementMentions (a : Nat) (e : Element) :
    (elementMentions a e).Pairwise fun m n => m.addr < n.addr := by
  cases e with
  | nil => exact .nil
  | cons w ws =>
    cases w with
    | holds name =>
      refine List.pairwise_cons.mpr ⟨?_, ascending_wordMentions (a + 1) ws⟩
      intro m member
      obtain ⟨-, i, -, addr⟩ := mem_wordMentions.mp member
      dsimp only
      omega
    | _ => exact ascending_wordMentions (a + 1) _

theorem ascending_mentionsFrom (a : Nat) (es : List Element) :
    (mentionsFrom a es).Pairwise fun m n => m.addr < n.addr := by
  induction es generalizing a with
  | nil => exact .nil
  | cons e es ih =>
    refine List.pairwise_append.mpr ⟨ascending_elementMentions a e, ih _, ?_⟩
    intro m here n later
    obtain ⟨o, e', -, member⟩ := mem_mentionsFrom.mp later
    have := (bounds_elementMentions here).2
    have := (bounds_elementMentions member).1
    omega

end HornMachine
