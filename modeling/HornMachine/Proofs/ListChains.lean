import HornMachine.Proofs.Renaming
import Std.Data.String.ToNat

/-!
# Lists as chains of equations

A list is expanded to a chain of equations, one for each item. What is left behind its
first items has names of its own in this chain, made of the name of the list and a number.
So the variables of expanded elements are those that are written there and these names,
each of which has an equation.
-/
namespace HornMachine

namespace Sentence

/-- Equations for the items of a list from the `i`-th on, where `rest i` is the name of
what is left behind the first `i` items. -/
def chain (rest : Nat → String) (i : Nat) : List Word → Sentence
  | [] => []
  | [item] => [[.holds (rest i), .const "list", item, .const "nil"]]
  | item :: next :: items =>
    [.holds (rest i), .const "list", item, .var (rest (i + 1))] ::
      chain rest (i + 1) (next :: items)

/-- A variable called `x` is written in the sentence. -/
def Mentions (s : Sentence) (x : String) : Prop := ∃ w ∈ s.flatten, w.variable? = some x

/-- `x` is the name of the rest of a list in the chain that stands for the list. -/
def MakesUp (s : Sentence) (x : String) : Prop :=
  ∃ name items i, .lists name :: items ∈ s ∧ 0 < i ∧ i < items.length ∧ x = restName name i

variable {s es : Sentence} {name x : String} {items : List Word} {w : Word}
  {rest rest' : Nat → String} {i k : Nat}

theorem restName_inj (same : restName name i = restName name k) : i = k := by
  have longer (i : Nat) : name ≠ name ++ "__" ++ i.repr := by
    intro same
    have lengths := congrArg String.length same
    simp only [String.length_append] at lengths
    have : "__".length = 2 := rfl
    omega
  unfold restName at same
  split at same <;> split at same
  · omega
  · exact absurd same (longer k)
  · exact absurd same.symm (longer i)
  · exact Nat.repr_inj.mp ((String.append_right_inj _).mp same)

/-! ### Chains -/

theorem listChain_eq_chain (name : String) (i : Nat) (items : List Word) :
    listChain name i items = chain (restName name) i items := by
  induction items generalizing i with
  | nil => rfl
  | cons item items ih =>
    cases items with
    | nil => rfl
    | cons next items => rw [listChain, chain, ih]

theorem chain_rename (ρ : String → String) (rest : Nat → String) (i : Nat) (items : List Word) :
    (chain rest i items).rename ρ = chain (ρ ∘ rest) i (items.map (Word.rename ρ)) := by
  induction items generalizing i with
  | nil => rfl
  | cons item items ih =>
    cases items with
    | nil => rfl
    | cons next items => exact congrArg (_ :: ·) (ih (i + 1))

theorem chain_congr (same : ∀ k, k < items.length → rest (i + k) = rest' (i + k)) :
    chain rest i items = chain rest' i items := by
  induction items generalizing i with
  | nil => rfl
  | cons item items ih =>
    have first := same 0 (by simp)
    rw [Nat.add_zero] at first
    cases items with
    | nil => rw [chain, chain, first]
    | cons next items =>
      have second := same 1 (by simp)
      rw [chain, chain, first, second, ih]
      intro k short
      have later := same (k + 1) (by simpa using short)
      rwa [show i + (k + 1) = i + 1 + k by omega] at later

/-- The variables of a chain are those of its items and the names of its rests. -/
theorem variable_chain_from (member : w ∈ (chain rest i items).flatten)
    (named : w.variable? = some x) :
    w ∈ items ∨ ∃ k, k < items.length ∧ x = rest (i + k) := by
  induction items generalizing i with
  | nil => cases member
  | cons item items ih =>
    have first (same : w = .holds (rest i)) : x = rest (i + 0) := by
      subst same
      exact (Option.some.inj named).symm
    cases items with
    | nil =>
      simp only [chain, List.flatten_cons, List.flatten_nil, List.append_nil, List.mem_cons,
        List.not_mem_nil, or_false] at member
      rcases member with same | rfl | rfl | rfl
      · exact .inr ⟨0, Nat.succ_pos _, first same⟩
      · cases named
      · exact .inl (List.mem_cons_self ..)
      · cases named
    | cons next items =>
      rw [chain, List.flatten_cons, List.mem_append] at member
      rcases member with here | later
      · simp only [List.mem_cons, List.not_mem_nil, or_false] at here
        rcases here with same | rfl | rfl | rfl
        · exact .inr ⟨0, Nat.succ_pos _, first same⟩
        · cases named
        · exact .inl (List.mem_cons_self ..)
        · exact .inr ⟨1, by simp, (Option.some.inj named).symm⟩
      · rcases ih later with item | ⟨k, short, rfl⟩
        · exact .inl (List.mem_cons_of_mem _ item)
        · refine .inr ⟨k + 1, by simpa using short, ?_⟩
          rw [show i + (k + 1) = i + 1 + k by omega]

theorem variable_chain (member : w ∈ (chain rest 0 items).flatten) (named : w.variable? = some x) :
    w ∈ items ∨ ∃ k, k < items.length ∧ x = rest k := by
  simpa only [Nat.zero_add] using variable_chain_from member named

theorem holds_mem_chain_from (rest : Nat → String) (i : Nat) (short : k < items.length) :
    .holds (rest (i + k)) ∈ (chain rest i items).flatten := by
  induction items generalizing i k with
  | nil => cases short
  | cons item items ih =>
    cases k with
    | zero => cases items <;> simp [chain]
    | succ k =>
      have short : k < items.length := by simpa using short
      obtain ⟨next, items, rfl⟩ := List.exists_cons_of_length_pos (Nat.zero_lt_of_lt short)
      rw [chain, List.flatten_cons, show i + (k + 1) = i + 1 + k by omega]
      exact List.mem_append_right _ (ih (i + 1) short)

theorem holds_mem_chain (rest : Nat → String) (short : k < items.length) :
    .holds (rest k) ∈ (chain rest 0 items).flatten := by
  simpa only [Nat.zero_add] using holds_mem_chain_from rest 0 short

theorem mem_tail_chain (rest : Nat → String) (i : Nat) (member : w ∈ items) :
    ∃ e ∈ chain rest i items, w ∈ e.tail := by
  induction items generalizing i with
  | nil => cases member
  | cons item items ih =>
    rcases List.mem_cons.mp member with rfl | later
    · cases items <;> exact ⟨_, List.mem_cons_self .., by simp⟩
    · obtain ⟨next, items, rfl⟩ := List.exists_cons_of_ne_nil (List.ne_nil_of_mem later)
      obtain ⟨e, there, inside⟩ := ih (i + 1) later
      exact ⟨e, List.mem_cons_of_mem _ there, inside⟩

/-- Each item of a chain has a place that does not depend on the names. -/
theorem slot_chain (t : Symbols) (rest : Nat → String) (i : Nat) (items : List Word) (k : Nat) :
    ((chain rest i items).flatMap (blockOf t))[4 * k + 2]? = items[k]?.map (Slot.of t) := by
  induction items generalizing i k with
  | nil => rfl
  | cons item items ih =>
    cases items with
    | nil =>
      cases k with
      | zero => rfl
      | succ k =>
        have short : ((chain rest i [item]).flatMap (blockOf t)).length = 4 := rfl
        rw [List.getElem?_eq_none (by omega)]
        rfl
    | cons next items =>
      cases k with
      | zero => rfl
      | succ k => exact ih (i + 1) k

theorem length_slots_chain (t : Symbols) (rest : Nat → String) (i : Nat) (items : List Word) :
    ((chain rest i items).flatMap (blockOf t)).length = 4 * items.length := by
  induction items generalizing i with
  | nil => rfl
  | cons item items ih =>
    cases items with
    | nil => rfl
    | cons next items =>
      rw [chain, List.flatMap_cons, List.length_append, ih]
      simp only [length_blockOf, blockSize, contentOf, List.length_cons, List.length_nil]
      omega

theorem flatMap_expansion_chain (rest : Nat → String) (i : Nat) (items : List Word) :
    (chain rest i items).flatMap expansion = chain rest i items := by
  induction items generalizing i with
  | nil => rfl
  | cons item items ih =>
    cases items with
    | nil => rfl
    | cons next items => exact congrArg (_ :: ·) (ih (i + 1))

/-! ### Variables of the expanded elements -/

theorem mem_heldNames : x ∈ es.heldNames ↔ .holds x ∈ es.flatten := by
  rw [heldNames, List.mem_filterMap]
  constructor
  · rintro ⟨w, member, held⟩
    cases w with
    | holds name =>
      cases held
      exact member
    | _ => cases held
  · exact fun member => ⟨_, member, rfl⟩

/-- Variables of expanded elements that are not written there are names of rests. -/
theorem variable_expanded (member : w ∈ (s.flatMap expansion).flatten)
    (named : w.variable? = some x) :
    w ∈ s.flatten ∨
      ∃ name items k, .lists name :: items ∈ s ∧ k < items.length ∧ x = restName name k := by
  obtain ⟨e', inside, member⟩ := List.mem_flatten.mp member
  obtain ⟨e, there, inside⟩ := List.mem_flatMap.mp inside
  rcases expansion_cases e with ⟨single, -⟩ | ⟨name, words, rfl, expanded⟩
  · rw [single, List.mem_singleton] at inside
    subst inside
    exact .inl (List.mem_flatten.mpr ⟨_, there, member⟩)
  · rw [expanded, listChain_eq_chain] at inside
    rcases variable_chain (List.mem_flatten.mpr ⟨e', inside, member⟩) named with
      item | ⟨k, short, rfl⟩
    · exact .inl (List.mem_flatten.mpr ⟨_, there, List.mem_cons_of_mem _ item⟩)
    · exact .inr ⟨name, words, k, there, short, rfl⟩

theorem holds_mem_expanded (there : .lists name :: items ∈ s) (short : k < items.length) :
    .holds (restName name k) ∈ (s.flatMap expansion).flatten := by
  have held := holds_mem_chain (restName name) short
  rw [← listChain_eq_chain] at held
  obtain ⟨e', inside, held⟩ := List.mem_flatten.mp held
  exact List.mem_flatten.mpr ⟨e', List.mem_flatMap.mpr ⟨_, there, inside⟩, held⟩

theorem MakesUp.holds_mem (made : MakesUp s x) : .holds x ∈ (s.flatMap expansion).flatten := by
  obtain ⟨name, items, i, there, -, short, rfl⟩ := made
  exact holds_mem_expanded there short

theorem mentions_or_makesUp (member : w ∈ (s.flatMap expansion).flatten)
    (named : w.variable? = some x) : Mentions s x ∨ MakesUp s x := by
  rcases variable_expanded member named with written | ⟨name, items, k, there, short, rfl⟩
  · exact .inl ⟨w, written, named⟩
  · cases k with
    | zero => exact .inl ⟨_, List.mem_flatten.mpr ⟨_, there, List.mem_cons_self ..⟩, rfl⟩
    | succ k => exact .inr ⟨name, items, _, there, Nat.succ_pos k, short, rfl⟩

end Sentence

end HornMachine
