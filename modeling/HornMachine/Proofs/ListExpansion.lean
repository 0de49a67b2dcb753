import HornMachine.Proofs.Layouts

/-!
# Sentences without list elements

Expanding a sentence fails at a list without items, and otherwise puts a chain of
equations in the place of each list. A chain of `n` items has `n` blocks of four cells.
-/
namespace HornMachine

namespace Sentence

/-- The elements that stand for an element once lists are expanded. -/
def expansion : Element → Sentence
  | .lists name :: items => listChain name 0 items
  | e => [e]

variable {s es : Sentence} {e : Element} {err : LoadError}

theorem expansion_cases (e : Element) :
    expansion e = [e] ∧ (∀ name items, e ≠ .lists name :: items) ∨
      ∃ name items, e = .lists name :: items ∧ expansion e = listChain name 0 items := by
  rcases e with _ | ⟨_ | _ | _ | _ | name, items⟩
  case cons.lists => exact .inr ⟨name, items, rfl, rfl⟩
  all_goals exact .inl ⟨rfl, by simp⟩

theorem expandElement_cases (e : Element) :
    (∃ name, e = [.lists name] ∧ expandElement e = .error (.emptyList name)) ∨
      (∀ name, e ≠ [.lists name]) ∧ expandElement e = .ok (expansion e) := by
  cases e with
  | nil => exact .inr ⟨nofun, rfl⟩
  | cons w words =>
    cases w with
    | lists name =>
      cases words with
      | nil => exact .inl ⟨name, rfl, rfl⟩
      | cons item items => exact .inr ⟨by simp, rfl⟩
    | _ => exact .inr ⟨by simp, rfl⟩

theorem expandLists_cases (s : Sentence) :
    (∃ name, [.lists name] ∈ s ∧ s.expandLists = .error (.emptyList name)) ∨
      (∀ name, [.lists name] ∉ s) ∧ s.expandLists = .ok (s.flatMap expansion) := by
  induction s with
  | nil => exact .inr ⟨nofun, rfl⟩
  | cons e s ih =>
    have step : expandLists (e :: s) = do return (← expandElement e) ++ (← expandLists s) := by
      unfold expandLists
      rw [List.mapM_cons]
      cases expandElement e with
      | error err => rfl
      | ok first => cases s.mapM expandElement <;> rfl
    rw [step]
    rcases expandElement_cases e with ⟨name, rfl, here⟩ | ⟨items, here⟩
    · exact .inl ⟨name, List.mem_cons_self .., by rw [here]; rfl⟩
    · rw [here]
      rcases ih with ⟨name, there, later⟩ | ⟨none, later⟩
      · exact .inl ⟨name, List.mem_cons_of_mem _ there, by rw [later]; rfl⟩
      · refine .inr ⟨fun name => ?_, by rw [later]; rfl⟩
        rw [List.mem_cons, not_or]
        exact ⟨(items name).symm, none name⟩

theorem expandLists_eq_ok :
    s.expandLists = .ok es ↔ (∀ name, [.lists name] ∉ s) ∧ es = s.flatMap expansion := by
  rcases expandLists_cases s with ⟨name, there, refused⟩ | ⟨none, expanded⟩
  · rw [refused]
    exact ⟨nofun, fun both => absurd there (both.1 name)⟩
  · rw [expanded, Except.ok.injEq, eq_comm]
    exact ⟨fun same => ⟨none, same⟩, fun both => both.2⟩

/-! ### Chains of equations -/

theorem listChain_content {name : String} {i : Nat} {items : List Word} {e : Element}
    (member : e ∈ listChain name i items) :
    isEquation e = true ∧ ∀ n, Word.number n ∈ e → Word.number n ∈ items := by
  induction items generalizing i with
  | nil => cases member
  | cons item items ih =>
    cases items with
    | nil =>
      rw [listChain, List.mem_singleton] at member
      subst member
      exact ⟨rfl, fun n number => by simpa using number⟩
    | cons next items =>
      rw [listChain, List.mem_cons] at member
      rcases member with rfl | later
      · refine ⟨rfl, fun n number => ?_⟩
        have : Word.number n = item := by simpa using number
        rw [this]
        exact List.mem_cons_self ..
      · obtain ⟨equation, numbers⟩ := ih later
        exact ⟨equation, fun n number => List.mem_cons_of_mem _ (numbers n number)⟩

theorem listChain_cons (name : String) (i : Nat) (item : Word) (items : List Word) :
    ∃ rest, listChain name i (item :: items) =
      [.holds (restName name i), .const "list", item, rest] :: listChain name (i + 1) items := by
  cases items with
  | nil => exact ⟨_, rfl⟩
  | cons next items => exact ⟨_, rfl⟩

theorem expansion_ne_nil (items : ∀ name, e ≠ [.lists name]) : expansion e ≠ [] := by
  rcases expansion_cases e with ⟨single, -⟩ | ⟨name, words, rfl, chain⟩
  · simp [single]
  · cases words with
    | nil => exact absurd rfl (items name)
    | cons item words =>
      obtain ⟨rest, cons⟩ := listChain_cons name 0 item words
      simp [chain, cons]

theorem not_lists_of_mem_expansion {e' : Element} (member : e' ∈ expansion e) (name : String)
    (words : List Word) : e' ≠ .lists name :: words := by
  rcases expansion_cases e with ⟨single, other⟩ | ⟨name', items, -, chain⟩
  · rw [single, List.mem_singleton] at member
    exact member ▸ other name words
  · rintro rfl
    rw [chain] at member
    cases (listChain_content member).1

/-- The number of cells the expansion of an element is laid out in: a block of four for
each item of a list, and else a header and a cell for each word behind the marker. -/
def cellsOf : Element → Nat
  | .lists _ :: items => 4 * items.length
  | e => blockSize e

/-- The number of cells a sentence is laid out in. -/
def cellCount (s : Sentence) : Nat := (s.map cellsOf).sum

theorem sum_listChain (name : String) (i : Nat) (items : List Word) :
    ((listChain name i items).map blockSize).sum = 4 * items.length := by
  induction items generalizing i with
  | nil => rfl
  | cons item items ih =>
    obtain ⟨rest, chain⟩ := listChain_cons name i item items
    rw [chain, List.map_cons, List.sum_cons, ih]
    simp only [blockSize, contentOf, List.length_cons, List.length_nil]
    omega

theorem sum_expansion (e : Element) : ((expansion e).map blockSize).sum = cellsOf e := by
  cases e with
  | nil => rfl
  | cons w words =>
    cases w with
    | lists name => exact sum_listChain name 0 words
    | _ => simp [expansion, cellsOf]

theorem sum_expandLists (expanded : s.expandLists = .ok es) :
    (es.map blockSize).sum = s.cellCount := by
  obtain ⟨-, rfl⟩ := expandLists_eq_ok.mp expanded
  rw [cellCount, List.map_flatMap, List.flatMap, List.sum_flatten, List.map_map]
  exact congrArg List.sum (List.map_congr_left fun e _ => sum_expansion e)

end Sentence

end HornMachine
