import HornMachine.Proofs.Instances
import HornMachine.Proofs.Templates

/-!
# Programs whose query is not called

The query is not called when its head starts with a constant with which no body
goal starts, and no body goal starts with a variable. This is said of the
sentences as they were read; it holds of the codes in terms of symbols.
-/
namespace HornMachine

/-- The element does not start with the constant `name` or with a variable. -/
def Element.spares (name : String) : Element → Bool
  | .const other :: _ => other ≠ name
  | .var _ :: _ => false
  | _ => true

/-- The last sentence, the query, starts with a constant, and no body element
starts with this constant or with a variable. -/
def queryUncalled (ss : List Sentence) : Bool :=
  match ss.getLast? with
  | some ((.const name :: _) :: _) => ss.all fun s => s.tail.all (Element.spares name)
  | _ => false

/-- The head of the query starts with the symbol `s`, and every body goal with a
constant or a number that differs from it. -/
structure Uncalled (w : Codes) (s : Nat) : Prop where
  head : w.query.cells[w.query.head.addr + 1]? = some (.constant s)
  body : ∀ code ∈ w.rules ++ [w.query], ∀ g ∈ code.body, ∃ c,
    code.cells[g.addr + 1]? = some c ∧ (c.tag = .constant ∨ c.tag = .number) ∧ c ≠ .constant s

namespace Sentence

/-- The head of a sentence stays as it is, and so do the body elements that are no
equations. -/
theorem head_of_expandLists {s : Sentence} {head : Element} {body : List Element}
    (expanded : s.expandLists = .ok (head :: body)) (goal : isEquation head = false) :
    ∃ tail, s = head :: tail ∧ ∀ e ∈ body, isEquation e = false → e ∈ tail := by
  obtain ⟨noEmpty, split⟩ := expandLists_eq_ok.mp expanded
  cases s with
  | nil => cases split
  | cons e tail =>
    rw [List.flatMap_cons] at split
    have items (name : String) : e ≠ [.lists name] := fun same => noEmpty name (by simp [same])
    rcases expansion_cases e with ⟨single, -⟩ | ⟨name, words, rfl, chain⟩
    · rw [single] at split
      obtain ⟨rfl, rfl⟩ := List.cons.inj split
      refine ⟨tail, rfl, fun e' member plain => ?_⟩
      have later : expandLists tail = .ok (tail.flatMap expansion) :=
        expandLists_eq_ok.mpr ⟨fun name there => ?_, rfl⟩
      · obtain ⟨e, there, rfl | ⟨equation, -⟩⟩ := of_expandLists later member
        · exact there
        · simp [plain] at equation
      · exact noEmpty name (List.mem_cons_of_mem _ there)
    · obtain ⟨first, rest, same⟩ := List.exists_cons_of_ne_nil (expansion_ne_nil items)
      rw [same] at split
      obtain ⟨rfl, -⟩ := List.cons.inj split
      have inside : head ∈ listChain name 0 words := by
        rw [← chain, same]
        exact List.mem_cons_self ..
      have equation : isEquation head = true := (listChain_content inside).1
      rw [goal] at equation
      cases equation

end Sentence

variable {t : Symbols} {code : ClauseCode} {g : Cell} {name : String} {s : Nat}

namespace Renders

variable {es : List Element}

theorem fixed_cell (renders : Renders t es code) {o i : Nat} {e : Element} {w : Word} {c : Cell}
    (block : BlockAt es o e) (found : (contentOf e)[i]? = some w) (fixed : Slot.of t w = .fixed c) :
    code.cells[o + 1 + i]? = some c := by
  have cell := Layout.word_cell block t found
  rw [fixed] at cell
  rw [renders.code]
  exact cell

/-- What a body goal starts with, if its element spares the query. -/
theorem first_of_spares (renders : Renders t es code) (small : code.size < 2 ^ 60)
    (sound : t.Sound) (known : t.resolve s = some name)
    (spares : ∀ head body, es = head :: body → ∀ e ∈ body, isEquation e = false →
      e.spares name = true)
    (member : g ∈ code.body) :
    ∃ c, code.cells[g.addr + 1]? = some c ∧ (c.tag = .constant ∨ c.tag = .number) ∧
      c ≠ .constant s := by
  obtain ⟨head, body, o, e, list, block, inside, goal, rfl⟩ := renders.of_mem_body member
  rw [renders.addr_goal small block]
  have spared := spares head body list e inside goal
  have content := contentOf_of_not_equation goal
  cases e with
  | nil => exact absurd block.mem renders.nonempty
  | cons w ws =>
    have found : (contentOf (w :: ws))[0]? = some w := by
      rw [content]
      rfl
    have plain := renders.word_plain block found
    cases w with
    | const other =>
      obtain ⟨id, interned⟩ := plain
      refine ⟨.constant id, renders.fixed_cell block found ?_, .inl (Cell.tag_constant id), ?_⟩
      · rw [Slot.of, interned, Option.getD_some]
      · intro same
        have named := sound.lookup_eq_some.mp interned
        have ids := Cell.make_inj (Symbols.id_lt named) (Symbols.id_lt known) same
        rw [ids, known, Option.some.injEq] at named
        simp [Element.spares, named] at spared
    | number n =>
      refine ⟨.number n, renders.fixed_cell block found rfl, .inr (Cell.tag_number n), ?_⟩
      intro same
      have tags := congrArg Cell.tag same
      rw [Cell.tag_number, Cell.tag_constant] at tags
      cases tags
    | var other => cases spared
    | holds other => cases goal
    | lists other => exact plain.elim

theorem head_first (renders : Renders t es code) (sound : t.Sound) {ws : List Word}
    {body : List Element} (list : es = (.const name :: ws) :: body) :
    ∃ s, t.resolve s = some name ∧ code.cells[code.head.addr + 1]? = some (.constant s) := by
  subst list
  have block := BlockAt.head (.const name :: ws) body
  have found : (contentOf (.const name :: ws))[0]? = some (Word.const name) := rfl
  obtain ⟨s, interned⟩ := renders.word_plain block found
  refine ⟨s, sound.lookup_eq_some.mp interned, ?_⟩
  rw [renders.head_eq, Cell.addr_structRef (by decide)]
  refine renders.fixed_cell block found ?_
  rw [Slot.of, interned, Option.getD_some]

end Renders

theorem of_queryUncalled {ss : List Sentence} (uncalled : queryUncalled ss = true) :
    ∃ rules query name ws body, ss = rules ++ [query] ∧
      query = (.const name :: ws) :: body ∧
        ∀ s ∈ ss, ∀ e ∈ s.tail, Element.spares name e = true := by
  unfold queryUncalled at uncalled
  split at uncalled
  · next name ws body last =>
    obtain ⟨rules, split⟩ := List.getLast?_eq_some_iff.mp last
    refine ⟨rules, _, name, ws, body, split, rfl, fun s member e inside => ?_⟩
    rw [List.all_eq_true] at uncalled
    exact List.all_eq_true.mp (uncalled s member) e inside
  · cases uncalled

theorem split_last {α β : Type} {R : α → β → Prop} {as : List α} {a : α} {bs : List β}
    (pairs : List.Forall₂ R (as ++ [a]) bs) :
    ∃ front last, bs = front ++ [last] ∧ List.Forall₂ R as front ∧ R a last := by
  induction as generalizing bs with
  | nil =>
    obtain _ | ⟨related, rest⟩ := pairs
    cases rest
    exact ⟨[], _, rfl, .nil, related⟩
  | cons a' as ih =>
    obtain _ | ⟨related, rest⟩ := pairs
    obtain ⟨front, last, rfl, paired, final⟩ := ih rest
    exact ⟨_ :: front, last, rfl, .cons related paired, final⟩

theorem exists_uncalled {ss : List Sentence} {codes : List ClauseCode}
    (uncalled : queryUncalled ss = true) (sound : t.Sound)
    (small : ∀ code ∈ codes, code.size < 2 ^ 60)
    (rendered : List.Forall₂ (fun s code => ∃ es, s.expandLists = .ok es ∧ Renders t es code)
      ss codes) :
    ∃ rules query s, codes = rules ++ [query] ∧ Uncalled ⟨rules, query, t.count⟩ s := by
  obtain ⟨before, last, name, ws, tail, rfl, rfl, spares⟩ := of_queryUncalled uncalled
  obtain ⟨rules, query, rfl, -, es, expanded, renders⟩ := split_last rendered
  obtain ⟨head, body, rfl, goal⟩ := renders.head
  obtain ⟨tail', split, -⟩ := Sentence.head_of_expandLists expanded goal
  obtain ⟨rfl, rfl⟩ := List.cons.inj split
  obtain ⟨s, known, first⟩ := renders.head_first sound rfl
  refine ⟨rules, query, s, rfl, first, ?_⟩
  intro code member g inside
  obtain ⟨sentence, there, es, expanded, renders⟩ := exists_left rendered member
  refine renders.first_of_spares (small code member) sound known ?_ inside
  intro head body list e later plain
  subst list
  obtain ⟨head', body', same, goal⟩ := renders.head
  obtain ⟨rfl, rfl⟩ := List.cons.inj same
  obtain ⟨tail, rfl, kept⟩ := Sentence.head_of_expandLists expanded goal
  exact spares _ there e (kept e later plain)

end HornMachine
