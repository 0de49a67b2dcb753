import HornMachine.Proofs.AcceptedCode
import HornMachine.Proofs.Linkage

/-!
# Why a sentence is refused

Linking refuses a sentence for a defect that can be seen in it: it has no element, a
list has no items, or, once the lists are written as chains, a marker stands where none
may stand or a name has two equations. Every refusal names such a defect, and a
sentence with one is refused. What was laid out of any other sentence passes the checks
on clauses: each reference is to a block of the layout, and each block lies inside it.
-/
namespace HornMachine

/-- The name for which a word opens an equation. -/
def Word.held? : Word → Option String
  | .holds name => some name
  | _ => none

namespace Sentence

/-- The names behind the `holds` words, once for each. -/
def heldNames (es : Sentence) : List String := es.flatten.filterMap Word.held?

/-- A marker that stands where none may stand, or two equations for a name. -/
inductive Misuse (es : Sentence) : LoadError → Prop
  | equationHead {name : String} {words : List Word} :
      es.head? = some (.holds name :: words) → Misuse es (.equationHead name)
  | innerMarker {e : Element} {marker : Marker} {name : String} :
      e ∈ es → marker.word name ∈ e.tail → Misuse es (.innerMarker marker name)
  | ambiguous {name : String} : 1 < (heldNames es).count name →
      Misuse es (.ambiguousVariable name)

/-- A defect of a sentence, with the error that reports it. -/
inductive Defect (s : Sentence) : LoadError → Prop
  | noElement : s = [] → Defect s .noHead
  | emptyList {name : String} : [.lists name] ∈ s → Defect s (.emptyList name)
  | misuse {es : Sentence} {e : LoadError} : s.expandLists = .ok es → Misuse es e → Defect s e

end Sentence

variable {t : Symbols} {es : Sentence}

/-! ### The checks on what was laid out -/

namespace Layout

/-- What is laid out of elements without misplaced markers is accepted. -/
theorem accepted {head : Element} {body : Sentence} (goal : isEquation head = false)
    (small : (layoutOf t (head :: body)).slots.size < 2 ^ 60)
    (plain : ∀ w ∈ (head :: body).flatMap contentOf, w.Plain t) :
    (layoutOf t (head :: body)).code.Accepted := by
  have bare := bare_linked small plain
  have size := (layoutOf t (head :: body)).size_code
  have neck := neck_bounds (t := t) body goal
  have small_of {o : Nat} {e : Element} (block : BlockAt (head :: body) o e) :
      o < 2 ^ 60 ∧ blockSize e < 2 ^ 60 := by
    have := block.end_le t
    omega
  refine ⟨by rw [size]; exact neck.2, ?_, ?_, ?_⟩
  · intro g member
    obtain ⟨o, placed, rfl⟩ : ∃ o, o ∈ goalsFrom 0 (head :: body) ∧ Cell.structRef o = g := by
      simpa [code, layoutOf] using member
    obtain ⟨o', e, block, -, rfl⟩ := mem_goalsFrom.mp placed
    rw [Nat.zero_add, Cell.addr_structRef (small_of block).1]
    exact ⟨Cell.tag_structRef _,
      ClauseCode.isHeaderAt_iff.mpr ⟨_, header_cell block t, Cell.tag_header _⟩⟩
  · refine ⟨_, _, goals_code body goal, ?_⟩
    rw [Cell.addr_structRef (by decide)]
    exact neck.1
  · intro a c found
    have inside (ref : c.isInternalRef = true) := bare.ref_lt found ref
    rcases cell_cases found with ⟨e, block, rfl⟩ | ⟨o, e, i, w, block, word, rfl, rfl⟩
    · have bound := block.end_le t
      obtain ⟨-, short⟩ := small_of block
      unfold blockSize at bound short
      refine ⟨by simp, inside, by simp, fun _ => ?_⟩
      rw [Cell.addr_header (by omega), size]
      omega
    · have element := isElement_slotCell block word (plain w (block.word_mem word))
      refine ⟨element.2, inside, fun tag => ?_, fun tag => absurd tag element.1⟩
      obtain ⟨n, target⟩ := bare.ref _ _ found tag
      exact ClauseCode.isHeaderAt_iff.mpr ⟨_, target.1, Cell.tag_header n⟩

/-- The names with an equation in a layout, in order. -/
theorem anchorNames_layoutOf (t : Symbols) (es : Sentence) :
    (layoutOf t es).anchorNames = es.filterMap fun e => e.head?.bind Word.held? := by
  have words (a : Nat) (ws : List Word) : (wordMentions a ws).filter (·.anchor) = [] := by
    rw [List.filter_eq_nil_iff]
    intro m member
    simp [(mem_wordMentions.mp member).1]
  have each (a : Nat) (e : Element) : ((elementMentions a e).filter (·.anchor)).map (·.name) =
      (e.head?.bind Word.held?).toList := by
    cases e with
    | nil => rfl
    | cons w ws => cases w <;> simp [elementMentions, words, Word.held?]
  have from' (a : Nat) : ((mentionsFrom a es).filter (·.anchor)).map (·.name) =
      es.filterMap fun e => e.head?.bind Word.held? := by
    induction es generalizing a with
    | nil => rfl
    | cons e es ih =>
      rw [mentionsFrom, List.filter_append, List.map_append, each, ih]
      cases held : e.head?.bind Word.held? <;> simp [held]
  exact from' 0

end Layout

theorem Sentence.heldNames_eq (plain : ∀ w ∈ es.flatMap contentOf, w.Plain t) :
    heldNames es = es.filterMap fun e => e.head?.bind Word.held? := by
  have none {ws : List Word} (plain : ∀ w ∈ ws, w.Plain t) : ws.filterMap Word.held? = [] := by
    rw [List.filterMap_eq_nil_iff]
    intro w member
    cases w with
    | holds name => exact (plain _ member).elim
    | _ => rfl
  induction es with
  | nil => rfl
  | cons e es ih =>
    rw [List.flatMap_cons] at plain
    have content := none fun w member => plain w (List.mem_append_left _ member)
    have rest := ih fun w member => plain w (List.mem_append_right _ member)
    have first : e.filterMap Word.held? = (e.head?.bind Word.held?).toList := by
      cases e with
      | nil => rfl
      | cons w ws =>
        cases w with
        | holds name => exact congrArg (name :: ·) content
        | _ => exact content
    rw [heldNames, List.flatten_cons, List.filterMap_append, first, ← heldNames, rest]
    cases held : e.head?.bind Word.held? <;> simp [held]

/-! ### Refusals -/

namespace Linking

/-- The step of linking is refused for `e`. -/
def Fails {α : Type} (x : Linking α) (s : Symbols) (e : LoadError) : Prop :=
  ∃ t, x.run s = (.error e, t)

variable {α β : Type} {r s : Symbols} {err : LoadError} {l : Layout} {w : Word} {e : Element}
  {ws : List Word}

theorem fails_bind {x : Linking α} {f : α → Linking β} :
    Fails (x >>= f) s err ↔ Fails x s err ∨ ∃ a t, Runs x s a t ∧ Fails (f a) t err := by
  unfold Fails Runs
  rw [run_bind]
  obtain ⟨r, t⟩ := x.run s
  cases r with
  | error e =>
    constructor
    · rintro ⟨t', failed⟩
      cases failed
      exact .inl ⟨t, rfl⟩
    · rintro (⟨t', failed⟩ | ⟨a, t', ran, -⟩)
      · cases failed
        exact ⟨t, rfl⟩
      · cases ran
  | ok a =>
    constructor
    · intro failed
      exact .inr ⟨a, t, rfl, failed⟩
    · rintro (⟨t', failed⟩ | ⟨a', t', ran, failed⟩)
      · cases failed
      · cases ran
        exact failed

theorem not_fails_pure {a : α} : ¬ Fails (pure a) s err := by
  rintro ⟨t, failed⟩
  cases failed

theorem fails_throw {e : LoadError} (failed : Fails (throw e : Linking α) s err) : err = e := by
  obtain ⟨t, failed⟩ := failed
  cases failed
  rfl

theorem not_fails_intern {name : String} : ¬ Fails (intern name) s err := by
  rintro ⟨t, failed⟩
  cases failed

theorem fails_liftExcept {x : Except LoadError α} (failed : Fails (liftExcept x) s err) :
    x = .error err := by
  cases x with
  | ok a => exact absurd failed not_fails_pure
  | error e => rw [fails_throw failed]

theorem of_fails_placeWord (failed : Fails (placeWord l w) s err) :
    ∃ marker name, w = Marker.word name marker ∧ err = .innerMarker marker name := by
  cases w with
  | const name =>
    rcases fails_bind.mp failed with failed | ⟨_, _, -, failed⟩
    · exact absurd failed not_fails_intern
    · exact absurd failed not_fails_pure
  | number _ => exact absurd failed not_fails_pure
  | var _ => exact absurd failed not_fails_pure
  | holds name => exact ⟨.holds, name, rfl, fails_throw failed⟩
  | lists name => exact ⟨.lists, name, rfl, fails_throw failed⟩

theorem of_fails_placeWords (failed : Fails (ws.foldlM placeWord l) s err) :
    ∃ marker name, Marker.word name marker ∈ ws ∧ err = .innerMarker marker name := by
  induction ws generalizing l s with
  | nil => exact absurd failed not_fails_pure
  | cons w ws ih =>
    rw [List.foldlM_cons] at failed
    rcases fails_bind.mp failed with first | ⟨_, _, -, rest⟩
    · obtain ⟨marker, name, rfl, same⟩ := of_fails_placeWord first
      exact ⟨marker, name, List.mem_cons_self .., same⟩
    · obtain ⟨marker, name, member, same⟩ := ih rest
      exact ⟨marker, name, List.mem_cons_of_mem _ member, same⟩

/-- An element is refused for a marker behind its start, or as an equation in place of
the head. -/
theorem of_fails_placeElement {first : Bool} (unlisted : ∀ name words, e ≠ .lists name :: words)
    (failed : Fails (placeElement first l e) s err) :
    (first = true ∧ ∃ name words, e = .holds name :: words ∧ err = .equationHead name) ∨
      ∃ marker name, Marker.word name marker ∈ e.tail ∧ err = .innerMarker marker name := by
  cases e with
  | nil => exact absurd failed not_fails_pure
  | cons w words =>
    have goal (start : ∀ marker name, w ≠ Marker.word name marker)
        (failed : Fails ((w :: words).foldlM placeWord (l.openGoal (words.length + 1))) s err) :
        ∃ marker name, Marker.word name marker ∈ words ∧ err = .innerMarker marker name := by
      obtain ⟨marker, name, member, same⟩ := of_fails_placeWords failed
      rcases List.mem_cons.mp member with here | later
      · exact absurd here.symm (start marker name)
      · exact ⟨marker, name, later, same⟩
    cases w with
    | holds name =>
      unfold placeElement at failed
      dsimp only at failed
      split at failed
      · next head => exact .inl ⟨head, name, words, rfl, fails_throw failed⟩
      · exact .inr (of_fails_placeWords failed)
    | lists name => exact absurd rfl (unlisted name words)
    | _ => exact .inr (goal (by rintro (_ | _) name <;> simp [Marker.word]) failed)

theorem of_fails_placeElements (unlisted : ∀ e ∈ es, ∀ name words, e ≠ .lists name :: words)
    (failed : Fails (es.foldlM (placeElement false) l) s err) :
    ∃ e ∈ es, ∃ marker name, Marker.word name marker ∈ e.tail ∧
      err = .innerMarker marker name := by
  induction es generalizing l s with
  | nil => exact absurd failed not_fails_pure
  | cons e es ih =>
    rw [List.foldlM_cons] at failed
    rcases fails_bind.mp failed with first | ⟨_, _, -, rest⟩
    · rcases of_fails_placeElement (unlisted e (List.mem_cons_self ..)) first with ⟨head, -⟩ | bad
      · cases head
      · exact ⟨e, List.mem_cons_self .., bad⟩
    · obtain ⟨e', member, bad⟩ := ih (fun e' member => unlisted e' (.tail _ member)) rest
      exact ⟨e', List.mem_cons_of_mem _ member, bad⟩

theorem of_fails_placeSentence (unlisted : ∀ e ∈ es, ∀ name words, e ≠ .lists name :: words)
    (failed : Fails (placeSentence es) s err) : es.Misuse err := by
  cases es with
  | nil => exact absurd failed not_fails_pure
  | cons head body =>
    rcases fails_bind.mp failed with first | ⟨_, _, -, rest⟩
    · rcases of_fails_placeElement (unlisted head (List.mem_cons_self ..)) first with
        ⟨-, name, words, rfl, rfl⟩ | ⟨marker, name, member, rfl⟩
      · exact .equationHead rfl
      · exact .innerMarker (List.mem_cons_self ..) member
    · obtain ⟨e, member, marker, name, inside, rfl⟩ :=
        of_fails_placeElements (fun e member => unlisted e (.tail _ member)) rest
      exact .innerMarker (List.mem_cons_of_mem _ member) inside

/-- What a refusal of a sentence comes from. -/
theorem of_fails_link {s : Sentence} (failed : Fails (link s) r err) :
    (∃ name, [.lists name] ∈ s ∧ err = .emptyList name) ∨
      ∃ es, s.expandLists = .ok es ∧
        (es.Misuse err ∨ ∃ l t, Runs (placeSentence es) r l t ∧ l.code.validate = .error err) := by
  rcases fails_bind.mp failed with lifted | ⟨es, _, lifted, failed⟩
  · rcases Sentence.expandLists_cases s with ⟨name, there, refused⟩ | ⟨-, expanded⟩
    · rw [fails_liftExcept lifted, Except.error.injEq] at refused
      exact .inl ⟨name, there, refused⟩
    · rw [fails_liftExcept lifted] at expanded
      cases expanded
  obtain ⟨expanded, rfl⟩ := runs_liftExcept.mp lifted
  refine .inr ⟨es, expanded, ?_⟩
  rcases fails_bind.mp failed with bad | ⟨l, t, placed, failed⟩
  · refine .inl (of_fails_placeSentence ?_ bad)
    obtain ⟨-, rfl⟩ := Sentence.expandLists_eq_ok.mp expanded
    intro e member
    obtain ⟨source, -, inside⟩ := List.mem_flatMap.mp member
    exact Sentence.not_lists_of_mem_expansion inside
  cases ambiguous : l.ambiguous? with
  | some name =>
    rw [ambiguous] at failed
    obtain rfl := fails_throw failed
    obtain ⟨-, plain, -, layout⟩ := placeSentence_spec placed
    rw [layout t (.refl t)] at ambiguous
    have twice := Layout.count_of_ambiguous? ambiguous
    rw [Layout.anchorNames_layoutOf, ← Sentence.heldNames_eq plain] at twice
    exact .inl (.ambiguous twice)
  | none =>
    rw [ambiguous] at failed
    rcases fails_bind.mp failed with checked | ⟨_, _, -, failed⟩
    · exact .inr ⟨l, t, placed, fails_liftExcept checked⟩
    · exact absurd failed not_fails_pure

/-- What was laid out of elements is accepted, if there are any. -/
theorem validate_placed {t : Symbols} (placed : Runs (placeSentence es) s l t) (some : es ≠ [])
    (small : (es.map blockSize).sum < 2 ^ 60) : l.code.validate = .ok () := by
  obtain ⟨-, plain, goal, layout⟩ := placeSentence_spec placed
  obtain ⟨head, body, rfl⟩ := List.exists_cons_of_ne_nil some
  rw [layout t (.refl t), ClauseCode.validate_eq_ok]
  exact Layout.accepted (goal head rfl) (by rwa [slots_size]) plain

end Linking

namespace Sentence

variable {s : Sentence} {symbols : Symbols}

theorem mem_contentOf_of_tail {e : Element} {w : Word} (inside : w ∈ e.tail) :
    w ∈ contentOf e := by
  cases e with
  | nil => cases inside
  | cons first words =>
    cases first with
    | holds name => exact inside
    | _ => exact List.mem_cons_of_mem _ inside

theorem expandLists_ne_nil (expanded : s.expandLists = .ok es) (some : s ≠ []) : es ≠ [] := by
  obtain ⟨items, rfl⟩ := expandLists_eq_ok.mp expanded
  obtain ⟨e, s, rfl⟩ := List.exists_cons_of_ne_nil some
  rw [List.flatMap_cons]
  intro none
  exact expansion_ne_nil (fun name same => items name (by simp [same]))
    (List.append_eq_nil_iff.mp none).1

/-- A refusal reports a defect. -/
theorem defect_of_error {e : LoadError} (fits : s.cellCount < 2 ^ 60)
    (refused : (ClauseCode.ofSentence s symbols).1 = .error e) : s.Defect e := by
  rcases Linking.of_fails_link ⟨_, Prod.ext refused rfl⟩ with
    ⟨name, there, rfl⟩ | ⟨es, expanded, misuse | ⟨l, t, placed, checked⟩⟩
  · exact .emptyList there
  · exact .misuse expanded misuse
  · by_cases empty : s = []
    · subst empty
      cases expanded
      obtain ⟨rfl, -⟩ := Linking.runs_pure.mp placed
      cases checked
      exact .noElement rfl
    · have small := sum_expandLists expanded
      rw [Linking.validate_placed placed (expandLists_ne_nil expanded empty) (by omega)]
        at checked
      cases checked

theorem not_misuse (goal : ∀ head ∈ es.head?, isEquation head = false)
    (plain : ∀ w ∈ es.flatMap contentOf, w.Plain t)
    (unambiguous : (layoutOf t es).ambiguous? = none) (e : LoadError) : ¬ es.Misuse e := by
  intro misuse
  cases misuse with
  | equationHead same =>
    have head := goal _ same
    cases head
  | @innerMarker e marker name member inside =>
    have bad := plain _ (List.mem_flatMap.mpr ⟨e, member, mem_contentOf_of_tail inside⟩)
    cases marker <;> exact bad
  | ambiguous twice =>
    rw [Layout.ambiguous?_eq_none, Layout.anchorNames_layoutOf, ← heldNames_eq plain]
      at unambiguous
    exact absurd twice (Nat.not_lt.mpr (List.nodup_iff_count_le_one.mp unambiguous _))

theorem not_defect_of_ok {code : ClauseCode}
    (linked : (ClauseCode.ofSentence s symbols).1 = .ok code) (e : LoadError) : ¬ s.Defect e := by
  obtain ⟨es, expanded, -, links⟩ := Linking.link_links (Prod.ext linked rfl)
  obtain ⟨-, -, plain, ⟨head, body, rfl, goal⟩, unambiguous⟩ := links _ (.refl _)
  intro defect
  cases defect with
  | noElement none =>
    subst none
    cases expanded
  | emptyList there => exact (expandLists_eq_ok.mp expanded).1 _ there
  | misuse again misuse =>
    obtain rfl := Except.ok.inj (expanded.symm.trans again)
    exact not_misuse (by simpa using goal) plain unambiguous e misuse

/-- Without a misuse, elements whose layout is accepted link to that layout. -/
theorem ofSentence_eq (expanded : s.expandLists = .ok es) (clean : ∀ e, ¬ es.Misuse e)
    (table : t = symbols.internAll ((es.flatMap contentOf).filterMap Word.constant?))
    (valid : (layoutOf t es).code.validate = .ok ()) :
    ClauseCode.ofSentence s symbols = (.ok (layoutOf t es).code, t) := by
  cases ran : ClauseCode.ofSentence s symbols with
  | mk result t' =>
    cases result with
    | ok code =>
      obtain ⟨es', again, rfl, links⟩ := Linking.link_links ran
      obtain rfl := Except.ok.inj (expanded.symm.trans again)
      rw [(links _ (.refl _)).code, table]
    | error e =>
      rcases Linking.of_fails_link ⟨_, ran⟩ with
        ⟨name, there, -⟩ | ⟨es', again, misuse | ⟨l, u, placed, checked⟩⟩
      · exact absurd there ((expandLists_eq_ok.mp expanded).1 name)
      · obtain rfl := Except.ok.inj (expanded.symm.trans again)
        exact absurd misuse (clean e)
      · obtain rfl := Except.ok.inj (expanded.symm.trans again)
        obtain ⟨table', -, -, layout⟩ := Linking.placeSentence_spec placed
        rw [layout u (.refl u), table', ← table, valid] at checked
        cases checked

/-- A sentence is refused exactly if it has a defect. The error is about the clause and
reports a defect, and what was laid out of a sentence with an element is never refused by
the checks on clauses. Like a heap, code has fewer than 2^60 cells. -/
theorem refused_iff (s : Sentence) (symbols : Symbols) (fits : s.cellCount < 2 ^ 60) :
    ((∃ e, (ClauseCode.ofSentence s symbols).1 = .error e) ↔ ∃ e, s.Defect e) ∧
    (∀ e, (ClauseCode.ofSentence s symbols).1 = .error e → s.Defect e ∧ e.kind = .malformed) ∧
    (s ≠ [] → ∀ es l t, s.expandLists = .ok es →
      (Linking.placeSentence es).run symbols = (.ok l, t) → l.code.validate = .ok ()) := by
  refine ⟨⟨?_, ?_⟩, ?_, ?_⟩
  · rintro ⟨e, refused⟩
    exact ⟨e, defect_of_error fits refused⟩
  · rintro ⟨e, defect⟩
    cases linked : (ClauseCode.ofSentence s symbols).1 with
    | error e => exact ⟨e, rfl⟩
    | ok code => exact absurd defect (not_defect_of_ok linked e)
  · intro e refused
    have defect := defect_of_error fits refused
    refine ⟨defect, ?_⟩
    rcases defect with _ | _ | ⟨-, misuse⟩
    · rfl
    · rfl
    · cases misuse <;> rfl
  · intro some es l t expanded placed
    have small := sum_expandLists expanded
    exact Linking.validate_placed placed (expandLists_ne_nil expanded some) (by omega)

/-- `p X X__1 if X__1 holds f a and X lists a b .`, where the chain of the list has an
equation for `X__1` as well. -/
def clashing : Sentence :=
  [[.const "p", .var "X", .var "X__1"], [.holds "X__1", .const "f", .const "a"],
    [.lists "X", .const "a", .const "b"]]

theorem refused_iff_clashing :
    clashing.cellCount < 2 ^ 60 ∧
    (ClauseCode.ofSentence clashing ⟨#["b"]⟩).1 = .error (.ambiguousVariable "X__1") ∧
    clashing.Defect (.ambiguousVariable "X__1") := by
  have fits : clashing.cellCount < 2 ^ 60 := by decide
  have refused : (ClauseCode.ofSentence clashing ⟨#["b"]⟩).1 =
      .error (.ambiguousVariable "X__1") := by decide +kernel
  exact ⟨fits, refused, ((refused_iff clashing ⟨#["b"]⟩ fits).2.1 _ refused).1⟩

end Sentence

end HornMachine
