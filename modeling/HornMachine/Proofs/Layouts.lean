import HornMachine.Clause.Linking
import HornMachine.Proofs.SymbolTable

/-!
# What linking lays out

The layout of a sentence is a function of the sentence and of the table of
symbols: a block per element, the mentions of names in ascending order, and the
offsets of the blocks that are goals. Linking computes this layout, and since the
table only grows while it does, every number given out on the way is the one the
final table has.
-/
namespace HornMachine

/-- The words of an element that get cells of their own. -/
def contentOf : Element → List Word
  | .holds _ :: words => words
  | words => words

def isEquation : Element → Bool
  | .holds _ :: _ => true
  | _ => false

/-- The word can be laid out, and its name is known. -/
def Word.Plain (t : Symbols) : Word → Prop
  | .const name => ∃ id, t.lookup name = some id
  | .number _ => True
  | .var _ => True
  | .holds _ => False
  | .lists _ => False

/-- The name that laying out a word interns. -/
def Word.constant? : Word → Option String
  | .const name => some name
  | _ => none

/-- The slot of a word that can be laid out. -/
def Slot.of (t : Symbols) : Word → Slot
  | .const name => .fixed (.constant ((t.lookup name).getD 0))
  | .number n => .fixed (.number n)
  | .var name => .variable name
  | .holds name => .variable name
  | .lists name => .variable name

def blockOf (t : Symbols) (e : Element) : List Slot :=
  .fixed (.header (contentOf e).length) :: (contentOf e).map (Slot.of t)

/-- Mentions in words whose cells start at `a`. -/
def wordMentions (a : Nat) : List Word → List Mention
  | [] => []
  | .var name :: words => ⟨name, a, false⟩ :: wordMentions (a + 1) words
  | _ :: words => wordMentions (a + 1) words

/-- Mentions in an element whose block starts at `a`. -/
def elementMentions (a : Nat) : Element → List Mention
  | .holds name :: words => ⟨name, a, true⟩ :: wordMentions (a + 1) words
  | words => wordMentions (a + 1) words

/-- The number of cells in the block of an element. -/
def blockSize (e : Element) : Nat := (contentOf e).length + 1

/-- Mentions in elements whose blocks start at `a`. -/
def mentionsFrom (a : Nat) : List Element → List Mention
  | [] => []
  | e :: es => elementMentions a e ++ mentionsFrom (a + blockSize e) es

/-- Offsets of the goals among elements whose blocks start at `a`. -/
def goalsFrom (a : Nat) : List Element → List Nat
  | [] => []
  | e :: es =>
    if isEquation e then goalsFrom (a + blockSize e) es
    else a :: goalsFrom (a + blockSize e) es

/-- The layout of elements whose names are all known. -/
def layoutOf (t : Symbols) (es : List Element) : Layout where
  slots := (es.flatMap (blockOf t)).toArray
  mentions := (mentionsFrom 0 es).toArray
  goals := (goalsFrom 0 es).toArray

@[simp] theorem length_blockOf (t : Symbols) (e : Element) :
    (blockOf t e).length = blockSize e := by
  simp [blockOf, blockSize]

theorem Word.Plain.mono {s t : Symbols} (grows : s.Grows t) {w : Word} (plain : w.Plain s) :
    w.Plain t := by
  cases w with
  | const name =>
    obtain ⟨id, found⟩ := plain
    exact ⟨id, grows.lookup found⟩
  | number _ => trivial
  | var _ => trivial
  | holds _ => exact plain
  | lists _ => exact plain

theorem wordMentions_append (a : Nat) (ws ws' : List Word) :
    wordMentions a (ws ++ ws') = wordMentions a ws ++ wordMentions (a + ws.length) ws' := by
  induction ws generalizing a with
  | nil => rfl
  | cons w ws ih =>
    have next : a + 1 + ws.length = a + (w :: ws).length := by
      rw [List.length_cons]
      omega
    cases w <;> simp [wordMentions, ih, next]

namespace Layout

/-- The layout with more at its end. -/
def extend (l : Layout) (slots : List Slot) (mentions : List Mention) (goals : List Nat) :
    Layout where
  slots := l.slots ++ slots.toArray
  mentions := l.mentions ++ mentions.toArray
  goals := l.goals ++ goals.toArray

theorem extend_extend (l : Layout) (slots slots' : List Slot) (mentions mentions' : List Mention)
    (goals goals' : List Nat) :
    (l.extend slots mentions goals).extend slots' mentions' goals' =
      l.extend (slots ++ slots') (mentions ++ mentions') (goals ++ goals') := by
  simp [extend, Array.append_assoc]

theorem size_extend (l : Layout) (slots : List Slot) (mentions : List Mention)
    (goals : List Nat) :
    (l.extend slots mentions goals).slots.size = l.slots.size + slots.length := by
  simp [extend]

end Layout

namespace Linking

/-- The step of linking succeeds and turns the table `s` into `t`. -/
def Runs {α : Type} (x : Linking α) (s : Symbols) (a : α) (t : Symbols) : Prop :=
  x.run s = (.ok a, t)

theorem run_bind {α β : Type} (x : Linking α) (f : α → Linking β) (s : Symbols) :
    (x >>= f).run s = match x.run s with
      | (.ok a, t) => (f a).run t
      | (.error e, t) => (.error e, t) := by
  change (match x.run s with | (r, t) => ExceptT.bindCont f r t) = _
  obtain ⟨r, t⟩ := x.run s
  cases r <;> rfl

theorem runs_bind {α β : Type} {x : Linking α} {f : α → Linking β} {s u : Symbols} {b : β} :
    Runs (x >>= f) s b u ↔ ∃ a t, Runs x s a t ∧ Runs (f a) t b u := by
  unfold Runs
  rw [run_bind]
  obtain ⟨r, t⟩ := x.run s
  cases r with
  | error e =>
    constructor
    · intro later
      cases later
    · rintro ⟨a, t', first, -⟩
      cases first
  | ok a =>
    constructor
    · intro later
      exact ⟨a, t, rfl, later⟩
    · rintro ⟨a', t', first, later⟩
      cases first
      exact later

theorem runs_pure {α : Type} {a b : α} {s t : Symbols} :
    Runs (pure a) s b t ↔ a = b ∧ s = t := by
  unfold Runs
  change ((.ok a, s) : Except LoadError α × Symbols) = (.ok b, t) ↔ _
  simp

theorem not_runs_throw {α : Type} {e : LoadError} {b : α} {s t : Symbols} :
    ¬ Runs (throw e) s b t := by
  unfold Runs
  change ¬ ((.error e, s) : Except LoadError α × Symbols) = (.ok b, t)
  simp

theorem runs_intern {name : String} {id : Nat} {s t : Symbols} :
    Runs (intern name) s id t ↔ s.intern name = (id, t) := by
  unfold Runs
  change (((.ok (s.intern name).1, (s.intern name).2) : Except LoadError Nat × Symbols) =
    (.ok id, t)) ↔ _
  simp [Prod.ext_iff]

/-- Linking went on from `l` to `l'` and laid out `slots`, whose words are `words`. -/
structure Laid (s t : Symbols) (l l' : Layout) (words : List Word)
    (slots : Symbols → List Slot) (mentions : List Mention) (goals : List Nat) : Prop where
  table : t = s.internAll (words.filterMap Word.constant?)
  plain : ∀ w ∈ words, w.Plain t
  layout : ∀ u : Symbols, t.Grows u → l' = l.extend (slots u) mentions goals

theorem Laid.grows {s t : Symbols} {l l' : Layout} {words : List Word}
    {slots : Symbols → List Slot} {mentions : List Mention} {goals : List Nat}
    (laid : Laid s t l l' words slots mentions goals) : s.Grows t :=
  laid.table ▸ s.grows_internAll _

theorem Laid.trans {s t u : Symbols} {l l' l'' : Layout} {words words' : List Word}
    {slots slots' : Symbols → List Slot} {mentions mentions' : List Mention}
    {goals goals' : List Nat} (first : Laid s t l l' words slots mentions goals)
    (second : Laid t u l' l'' words' slots' mentions' goals') :
    Laid s u l l'' (words ++ words') (fun v => slots v ++ slots' v) (mentions ++ mentions')
      (goals ++ goals') where
  table := by
    rw [List.filterMap_append, Symbols.internAll_append, ← first.table, ← second.table]
  plain w member := by
    rcases List.mem_append.mp member with old | new
    · exact (first.plain w old).mono second.grows
    · exact second.plain w new
  layout v grows := by
    rw [second.layout v grows, first.layout v (second.grows.trans grows), Layout.extend_extend]

theorem Laid.of_placeWord {s t : Symbols} {l l' : Layout} {w : Word}
    (e : Runs (placeWord l w) s l' t) :
    Laid s t l l' [w] (fun u => [Slot.of u w]) (wordMentions l.slots.size [w]) [] := by
  cases w with
  | const name =>
    obtain ⟨id, t', interned, e⟩ := runs_bind.mp e
    obtain ⟨rfl, rfl⟩ := runs_pure.mp e
    have interned := runs_intern.mp interned
    have found := s.lookup_intern name
    rw [interned] at found
    refine ⟨(congrArg Prod.snd interned).symm, ?_, ?_⟩
    · intro w member
      rw [List.mem_singleton.mp member]
      exact ⟨id, found⟩
    · intro u grows
      simp [Layout.fix, Layout.extend, Slot.of, grows.lookup found, wordMentions]
  | number n =>
    obtain ⟨rfl, rfl⟩ := runs_pure.mp e
    refine ⟨rfl, by simp [Word.Plain], fun u _ => ?_⟩
    simp [Layout.fix, Layout.extend, Slot.of, wordMentions]
  | var name =>
    obtain ⟨rfl, rfl⟩ := runs_pure.mp e
    refine ⟨rfl, by simp [Word.Plain], fun u _ => ?_⟩
    simp [Layout.mention, Layout.extend, Slot.of, wordMentions]
  | holds name => exact (not_runs_throw e).elim
  | lists name => exact (not_runs_throw e).elim

theorem Laid.of_placeWords {s t : Symbols} {l l' : Layout} {ws : List Word}
    (e : Runs (ws.foldlM placeWord l) s l' t) :
    Laid s t l l' ws (fun u => ws.map (Slot.of u)) (wordMentions l.slots.size ws) [] := by
  induction ws generalizing s l with
  | nil =>
    obtain ⟨rfl, rfl⟩ := runs_pure.mp e
    exact ⟨rfl, nofun, fun _ _ => by simp [Layout.extend, wordMentions]⟩
  | cons w ws ih =>
    rw [List.foldlM_cons] at e
    obtain ⟨m, r, first, rest⟩ := runs_bind.mp e
    have head := Laid.of_placeWord first
    have tail := ih rest
    have size : m.slots.size = l.slots.size + 1 := by
      rw [head.layout r (.refl r), Layout.size_extend]
      rfl
    have whole := head.trans tail
    rw [size] at whole
    have mentions := wordMentions_append l.slots.size [w] ws
    rw [List.length_singleton, List.singleton_append] at mentions
    rw [mentions]
    exact whole

theorem Laid.of_block {s t : Symbols} {l l' : Layout} {slot : Slot} {mentions : List Mention}
    {goals : List Nat} {ws : List Word}
    (placed : Runs (ws.foldlM placeWord (l.extend [slot] mentions goals)) s l' t) :
    Laid s t l l' ws (fun u => slot :: ws.map (Slot.of u))
      (mentions ++ wordMentions (l.slots.size + 1) ws) goals := by
  have header : Laid s s l (l.extend [slot] mentions goals) [] (fun _ => [slot]) mentions goals :=
    ⟨rfl, nofun, fun _ _ => rfl⟩
  have whole := header.trans (.of_placeWords placed)
  have size : (l.extend [slot] mentions goals).slots.size = l.slots.size + 1 := by
    rw [Layout.size_extend]
    rfl
  rw [size, List.append_nil] at whole
  exact whole

theorem Laid.of_goal {s t : Symbols} {l l' : Layout} {ws : List Word}
    (placed : Runs (ws.foldlM placeWord (l.openGoal ws.length)) s l' t) :
    Laid s t l l' ws (fun u => .fixed (.header ws.length) :: ws.map (Slot.of u))
      (wordMentions (l.slots.size + 1) ws) [l.slots.size] := by
  have opened : l.openGoal ws.length =
      l.extend [.fixed (.header ws.length)] [] [l.slots.size] := by
    simp [Layout.openGoal, Layout.extend]
  rw [opened] at placed
  exact .of_block placed

theorem Laid.of_equation {s t : Symbols} {l l' : Layout} {name : String} {ws : List Word}
    (placed : Runs (ws.foldlM placeWord (l.openEquation name ws.length)) s l' t) :
    Laid s t l l' ws (fun u => .fixed (.header ws.length) :: ws.map (Slot.of u))
      (⟨name, l.slots.size, true⟩ :: wordMentions (l.slots.size + 1) ws) [] := by
  have opened : l.openEquation name ws.length =
      l.extend [.fixed (.header ws.length)] [⟨name, l.slots.size, true⟩] [] := by
    simp [Layout.openEquation, Layout.extend]
  rw [opened] at placed
  exact .of_block placed

theorem Laid.of_placeElement {s t : Symbols} {l l' : Layout} {e : Element} {first : Bool}
    (placed : Runs (placeElement first l e) s l' t) :
    Laid s t l l' (contentOf e) (fun u => blockOf u e) (elementMentions l.slots.size e)
      (if isEquation e then [] else [l.slots.size]) ∧ (first = true → isEquation e = false) := by
  cases e with
  | nil => exact ⟨.of_goal placed, fun _ => rfl⟩
  | cons w words =>
    cases w with
    | const _ => exact ⟨.of_goal placed, fun _ => rfl⟩
    | number _ => exact ⟨.of_goal placed, fun _ => rfl⟩
    | var _ => exact ⟨.of_goal placed, fun _ => rfl⟩
    | lists _ => exact ⟨.of_goal placed, fun _ => rfl⟩
    | holds name =>
      unfold placeElement at placed
      dsimp only at placed
      split at placed
      · exact (not_runs_throw placed).elim
      · next body => exact ⟨.of_equation placed, fun e => absurd e body⟩

theorem Laid.of_placeElements {s t : Symbols} {l l' : Layout} {es : List Element}
    (e : Runs (es.foldlM (placeElement false) l) s l' t) :
    Laid s t l l' (es.flatMap contentOf) (fun u => es.flatMap (blockOf u))
      (mentionsFrom l.slots.size es) (goalsFrom l.slots.size es) := by
  induction es generalizing s l with
  | nil =>
    obtain ⟨rfl, rfl⟩ := runs_pure.mp e
    exact ⟨rfl, nofun, fun _ _ => by simp [Layout.extend, mentionsFrom, goalsFrom]⟩
  | cons e' es ih =>
    rw [List.foldlM_cons] at e
    obtain ⟨m, r, first, rest⟩ := runs_bind.mp e
    have head := (Laid.of_placeElement first).1
    have tail := ih rest
    have size : m.slots.size = l.slots.size + blockSize e' := by
      rw [head.layout r (.refl r), Layout.size_extend, length_blockOf]
    have whole := head.trans tail
    rw [size] at whole
    have goals : goalsFrom l.slots.size (e' :: es) =
        (if isEquation e' then [] else [l.slots.size]) ++
          goalsFrom (l.slots.size + blockSize e') es := by
      rw [goalsFrom]
      split <;> rfl
    rw [goals]
    exact whole

/-- The layout of a sentence that could be placed. -/
theorem placeSentence_spec {s t : Symbols} {l : Layout} {es : Sentence}
    (e : Runs (placeSentence es) s l t) :
    t = s.internAll ((es.flatMap contentOf).filterMap Word.constant?) ∧
      (∀ w ∈ es.flatMap contentOf, w.Plain t) ∧ (∀ head ∈ es.head?, isEquation head = false) ∧
      ∀ u : Symbols, t.Grows u → l = layoutOf u es := by
  cases es with
  | nil =>
    obtain ⟨rfl, rfl⟩ := runs_pure.mp e
    exact ⟨rfl, nofun, nofun, fun _ _ => rfl⟩
  | cons head body =>
    obtain ⟨m, r, first, rest⟩ := runs_bind.mp e
    obtain ⟨placed, goal⟩ := Laid.of_placeElement first
    have tail := Laid.of_placeElements rest
    have size : m.slots.size = blockSize head := by
      rw [placed.layout r (.refl r), Layout.size_extend, length_blockOf]
      exact Nat.zero_add _
    have whole := placed.trans tail
    rw [size, goal rfl] at whole
    refine ⟨whole.table, whole.plain, ?_, ?_⟩
    · intro e member
      cases member
      exact goal rfl
    · intro u grows
      rw [whole.layout u grows]
      have zero : (0 : Nat) + blockSize head = blockSize head := Nat.zero_add _
      simp [layoutOf, Layout.extend, mentionsFrom, goalsFrom, goal, zero]

end Linking

end HornMachine
