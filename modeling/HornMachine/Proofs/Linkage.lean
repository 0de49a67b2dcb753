import HornMachine.Machine
import HornMachine.Proofs.LayoutCode
import HornMachine.Proofs.ListExpansion

/-!
# From sentences to linked code

A sentence that links is laid out with its list equations expanded, every name
with an equation has just one, and the numbers of its constants are those of any
later table. Linking a whole program numbers no more names than there are cells.
-/
namespace HornMachine

/-- What the reader guarantees of a sentence. -/
structure Sentence.Readable (s : Sentence) : Prop where
  nonempty : [] ∉ s
  number : ∀ e ∈ s, ∀ n, Word.number n ∈ e → 0 ≤ n ∧ n < 2 ^ 60

/-- The code that linking makes of a sentence whose expanded elements are `es`, with
the names of `t`. -/
structure Links (t : Symbols) (es : List Element) (code : ClauseCode) : Prop where
  valid : code.validate = .ok ()
  code : code = (layoutOf t es).code
  plain : ∀ w ∈ es.flatMap contentOf, w.Plain t
  head : ∃ head body, es = head :: body ∧ isEquation head = false
  unambiguous : (layoutOf t es).ambiguous? = none

/-- The code of a readable sentence. -/
structure Renders (t : Symbols) (es : List Element) (code : ClauseCode) : Prop where
  code : code = (layoutOf t es).code
  plain : ∀ w ∈ es.flatMap contentOf, w.Plain t
  nonempty : [] ∉ es
  number : ∀ n, Word.number n ∈ es.flatMap contentOf → 0 ≤ n ∧ n < 2 ^ 60
  head : ∃ head body, es = head :: body ∧ isEquation head = false
  unambiguous : (layoutOf t es).ambiguous? = none

namespace Sentence

theorem of_expandLists {s es : Sentence} (expanded : s.expandLists = .ok es) {e' : Element}
    (member : e' ∈ es) :
    ∃ e ∈ s, e' = e ∨ isEquation e' = true ∧ ∀ n, Word.number n ∈ e' → Word.number n ∈ e := by
  obtain ⟨-, rfl⟩ := expandLists_eq_ok.mp expanded
  obtain ⟨e, there, inside⟩ := List.mem_flatMap.mp member
  refine ⟨e, there, ?_⟩
  rcases expansion_cases e with ⟨single, -⟩ | ⟨name, items, rfl, chain⟩
  · rw [single, List.mem_singleton] at inside
    exact .inl inside
  · rw [chain] at inside
    obtain ⟨equation, numbers⟩ := listChain_content inside
    exact .inr ⟨equation, fun n number => List.mem_cons_of_mem _ (numbers n number)⟩

theorem number_of_expandLists {s es : Sentence} (expanded : s.expandLists = .ok es) {n : Int}
    (member : Word.number n ∈ es.flatMap contentOf) : ∃ e ∈ s, Word.number n ∈ e := by
  obtain ⟨e', there, content⟩ := List.mem_flatMap.mp member
  have inside := mem_of_mem_contentOf content
  obtain ⟨e, source, rfl | ⟨-, numbers⟩⟩ := of_expandLists expanded there
  · exact ⟨e', source, inside⟩
  · exact ⟨e, source, numbers n inside⟩

theorem Readable.expand {s es : Sentence} (readable : s.Readable)
    (expanded : s.expandLists = .ok es) :
    [] ∉ es ∧ ∀ n, Word.number n ∈ es.flatMap contentOf → 0 ≤ n ∧ n < 2 ^ 60 := by
  constructor
  · intro member
    obtain ⟨e, there, rfl | ⟨equation, -⟩⟩ := of_expandLists expanded member
    · exact readable.nonempty there
    · cases equation
  · intro n member
    obtain ⟨e, source, inside⟩ := number_of_expandLists expanded member
    exact readable.number e source n inside

end Sentence

namespace Linking

theorem runs_liftExcept {α : Type} {x : Except LoadError α} {a : α} {s t : Symbols} :
    Runs (liftExcept x) s a t ↔ x = .ok a ∧ s = t := by
  cases x with
  | error e =>
    constructor
    · intro e
      exact (not_runs_throw e).elim
    · rintro ⟨e, -⟩
      cases e
  | ok b =>
    rw [liftExcept, runs_pure, Except.ok.injEq]

/-- What linking makes of a sentence, now and with any later table. The table may be any;
it gets the constants of the expanded sentence in order. -/
theorem link_links {s : Sentence} {r t : Symbols} {code : ClauseCode}
    (e : Runs (link s) r code t) :
    ∃ es, s.expandLists = .ok es ∧
      t = r.internAll ((es.flatMap contentOf).filterMap Word.constant?) ∧
      ∀ u : Symbols, t.Grows u → Links u es code := by
  obtain ⟨es, r', lifted, e⟩ := runs_bind.mp e
  obtain ⟨expanded, rfl⟩ := runs_liftExcept.mp lifted
  obtain ⟨l, t', placed, e⟩ := runs_bind.mp e
  obtain ⟨table, plain, goal, layout⟩ := placeSentence_spec placed
  cases ambiguous : l.ambiguous? with
  | some name =>
    rw [ambiguous] at e
    exact (not_runs_throw e).elim
  | none =>
    rw [ambiguous] at e
    obtain ⟨_, t'', lifted, e⟩ := runs_bind.mp e
    obtain ⟨validated, rfl⟩ := runs_liftExcept.mp lifted
    obtain ⟨rfl, rfl⟩ := runs_pure.mp e
    refine ⟨es, expanded, table, fun u grows => ?_⟩
    have same := layout u grows
    refine ⟨validated, by rw [same], fun w member => (plain w member).mono grows, ?_,
      by rw [← same, ambiguous]⟩
    cases es with
    | nil =>
      rw [same] at validated
      cases validated
    | cons head body => exact ⟨head, body, rfl, goal head rfl⟩

theorem link_spec {s : Sentence} {r t : Symbols} {code : ClauseCode} (distinct : r.Distinct)
    (readable : s.Readable) (e : Runs (link s) r code t) :
    t.Distinct ∧ r.Grows t ∧
      ∀ u : Symbols, t.Grows u → ∃ es, s.expandLists = .ok es ∧ Renders u es code := by
  obtain ⟨es, expanded, rfl, links⟩ := link_links e
  refine ⟨distinct.internAll _, r.grows_internAll _, fun u grows => ?_⟩
  obtain ⟨-, code, plain, head, unambiguous⟩ := links u grows
  obtain ⟨nonempty, number⟩ := readable.expand expanded
  exact ⟨es, expanded, code, plain, nonempty, number, head, unambiguous⟩

end Linking

namespace Machine

/-- Linking a program renders its sentences one by one. -/
theorem linkAll_spec {ss : List Sentence} {r t : Symbols} {codes : List ClauseCode}
    (distinct : r.Distinct) (readable : ∀ s ∈ ss, s.Readable)
    (e : linkAll r ss = .ok (codes, t)) :
    t.Distinct ∧ r.Grows t ∧
      ∀ u : Symbols, t.Grows u →
        List.Forall₂ (fun s code => ∃ es, s.expandLists = .ok es ∧ Renders u es code)
          ss codes := by
  induction ss generalizing r codes with
  | nil =>
    cases e
    exact ⟨distinct, .refl _, fun _ _ => .nil⟩
  | cons s ss ih =>
    unfold linkAll at e
    split at e
    · cases e
    · next code m linked =>
      cases rest : linkAll m ss with
      | error err =>
        rw [rest] at e
        cases e
      | ok result =>
        rw [rest] at e
        cases e
        obtain ⟨distinct', grows, renders⟩ :=
          Linking.link_spec distinct (readable s (List.mem_cons_self ..)) linked
        obtain ⟨distinct'', grows', later⟩ :=
          ih distinct' (fun s member => readable s (List.mem_cons_of_mem _ member)) rest
        exact ⟨distinct'', grows.trans grows', fun u grows'' =>
          .cons (renders u (grows'.trans grows'')) (later u grows'')⟩

end Machine

end HornMachine
