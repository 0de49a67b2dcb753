import HornMachine.Proofs.LayoutCode
import HornMachine.Term
import Std.Data.String.ToNat

/-!
# What a sentence says

The term of a word, without a heap: a constant is the label with its name, a number
is itself, a variable with an equation is the array of the words of that equation,
and any other variable is the label of the address where its name first occurs in the
clause. An array is only given while its equations nest at most so deep, and so never
where they are cyclic.
-/
namespace HornMachine

/-- What the cells of elements stand for: the header of an element for nothing, and
every other cell for a word. -/
def cellWords (es : List Element) : List (Option Word) :=
  es.flatMap fun e => none :: (contentOf e).map some

/-- The words of the equation for a variable. -/
def equation? (es : List Element) (name : String) : Option (List Word) :=
  es.findSome? fun
    | .holds other :: words => if other = name then some words else none
    | _ => none

/-- The label of a variable without an equation, in a clause stored at `base`. -/
def variableLabel? (es : List Element) (base : Nat) (name : String) : Option Term :=
  ((cellWords es).idxOf? (some (.var name))).map fun a => .label ("V" ++ (base + a).repr)

/-- The term of a word, given those of the equations. -/
def Word.termWith (es : List Element) (base : Nat) (inner : List Word → Option Term) :
    Word → Option Term
  | .const name => some (.label name)
  | .number n => some (.int n)
  | .var name =>
    match equation? es name with
    | some words => inner words
    | none => variableLabel? es base name
  | .holds _ => none
  | .lists _ => none

/-- The array of words, with at most `depth` arrays inside one another. -/
def arrayWithin (es : List Element) (base : Nat) : Nat → List Word → Option Term
  | 0, _ => none
  | depth + 1, words =>
    (words.mapM (Word.termWith es base (arrayWithin es base depth))).map .array

/-- Equations nest at most `depth` deep below words, and so are not cyclic there. -/
def Nests (es : List Element) : Nat → List Word → Prop
  | 0, words => ∀ name, .var name ∈ words → equation? es name = none
  | depth + 1, words => ∀ name inner, .var name ∈ words → equation? es name = some inner →
    Nests es depth inner

theorem mapM_eq_some {α β : Type} {f : α → Option β} {as : List α} {bs : List β} :
    as.mapM f = some bs ↔ List.Forall₂ (fun a b => f a = some b) as bs := by
  induction as generalizing bs with
  | nil =>
    rw [List.mapM_nil, List.forall₂_nil_left_iff]
    exact ⟨fun e => (Option.some.inj e).symm, fun e => congrArg some e.symm⟩
  | cons a as ih =>
    rw [List.mapM_cons, List.forall₂_cons_left_iff]
    constructor
    · intro e
      obtain ⟨b, first, e⟩ := Option.bind_eq_some_iff.mp e
      obtain ⟨bs, rest, e⟩ := Option.bind_eq_some_iff.mp e
      exact ⟨b, bs, first, ih.mp rest, (Option.some.inj e).symm⟩
    · rintro ⟨b, bs, first, rest, rfl⟩
      rw [first, ih.mpr rest]
      rfl

theorem exists_forall₂ {α β : Type} {r : α → β → Prop} {as : List α} (each : ∀ a ∈ as, ∃ b, r a b) :
    ∃ bs, List.Forall₂ r as bs := by
  induction as with
  | nil => exact ⟨[], .nil⟩
  | cons a as ih =>
    obtain ⟨⟨b, first⟩, others⟩ := List.forall_mem_cons.mp each
    obtain ⟨bs, rest⟩ := ih others
    exact ⟨b :: bs, .cons first rest⟩

variable {es : List Element} {base depth depth' o i : Nat} {e : Element} {w : Word}
  {ws : List Word} {name : String} {x y : Term} {xs : List Term} {t : Symbols}

theorem arrayWithin_succ :
    arrayWithin es base (depth + 1) ws = some x ↔ ∃ xs, x = .array xs ∧
      List.Forall₂ (fun w x => w.termWith es base (arrayWithin es base depth) = some x) ws xs := by
  rw [arrayWithin, Option.map_eq_some_iff]
  constructor
  · rintro ⟨xs, terms, rfl⟩
    exact ⟨xs, rfl, mapM_eq_some.mp terms⟩
  · rintro ⟨xs, rfl, terms⟩
    exact ⟨xs, mapM_eq_some.mpr terms, rfl⟩

theorem Word.termWith_mono {inner inner' : List Word → Option Term}
    (more : ∀ ws x, inner ws = some x → inner' ws = some x)
    (e : w.termWith es base inner = some x) : w.termWith es base inner' = some x := by
  cases w with
  | var name =>
    unfold termWith at e ⊢
    dsimp only at e ⊢
    split at e
    · exact more _ _ e
    · exact e
  | _ => exact e

theorem arrayWithin_mono (le : depth ≤ depth') (e : arrayWithin es base depth ws = some x) :
    arrayWithin es base depth' ws = some x := by
  induction depth generalizing depth' ws x with
  | zero => cases e
  | succ depth ih =>
    obtain ⟨depth', rfl⟩ := Nat.exists_eq_add_of_le' (Nat.le_of_add_left_le le)
    obtain ⟨xs, rfl, terms⟩ := arrayWithin_succ.mp e
    refine arrayWithin_succ.mpr ⟨xs, rfl, terms.imp fun w x term => ?_⟩
    exact Word.termWith_mono (fun _ _ => ih (Nat.le_of_succ_le_succ le)) term

theorem arrayWithin_unique (e : arrayWithin es base depth ws = some x)
    (e' : arrayWithin es base depth' ws = some y) : x = y :=
  Option.some.inj ((arrayWithin_mono (Nat.le_max_left depth depth') e).symm.trans
    (arrayWithin_mono (Nat.le_max_right depth depth') e'))

/-! ### Words and addresses -/

theorem length_cellWords (t : Symbols) (es : List Element) :
    (cellWords es).length = (layoutOf t es).slots.size := by
  rw [slots_size, cellWords, List.length_flatMap]
  congr 1
  exact List.map_congr_left fun e _ => by simp [blockSize]

theorem BlockAt.cellWord (block : BlockAt es o e) (inside : i < blockSize e) :
    (cellWords es)[o + i]? = (none :: (contentOf e).map some)[i]? :=
  block.getElem?_flatMap (fun e => by simp [blockSize]) inside

theorem getElem?_cellWords {a : Nat} :
    (cellWords es)[a]? = some (some w) ↔
      ∃ o e i, BlockAt es o e ∧ (contentOf e)[i]? = some w ∧ a = o + 1 + i := by
  constructor
  · intro found
    have inside := (List.getElem?_eq_some_iff.mp found).choose
    rw [length_cellWords {}] at inside
    obtain ⟨o, e, i, block, short, rfl⟩ := exists_block inside
    rw [block.cellWord short] at found
    cases i with
    | zero => cases found
    | succ i => exact ⟨o, e, i, block, by simpa using found, by omega⟩
  · rintro ⟨o, e, i, block, found, rfl⟩
    have short := (List.getElem?_eq_some_iff.mp found).choose
    rw [show o + 1 + i = o + (i + 1) by omega, block.cellWord (by unfold blockSize; omega)]
    simp [found]

/-- The variable without an equation that refers to the address `a` occurs there first. -/
theorem variableLabel?_eq {a : Nat} (first : (layoutOf t es).firstOf? name = some a)
    (free : (layoutOf t es).anchorOf? name = none) (block : BlockAt es o e)
    (found : (contentOf e)[i]? = some (.var name)) :
    variableLabel? es base name = some (.label ("V" ++ (base + a).repr)) := by
  have least {o i : Nat} {e : Element} (block : BlockAt es o e)
      (found : (contentOf e)[i]? = some (.var name)) : a ≤ o + 1 + i := by
    obtain ⟨b, first', le, -⟩ := Layout.exists_firstOf? (t := t) block found free
    obtain rfl : a = b := Option.some.inj (first.symm.trans first')
    exact le
  obtain ⟨b, first', -, o', e', i', block', found', rfl⟩ :=
    Layout.exists_firstOf? (t := t) block found free
  obtain rfl : a = o' + 1 + i' := Option.some.inj (first.symm.trans first')
  have here := getElem?_cellWords.mpr ⟨o', e', i', block', found', rfl⟩
  have index : (cellWords es).idxOf? (some (.var name)) = some (o' + 1 + i') := by
    rw [List.idxOf?_eq_some_iff]
    obtain ⟨inside, same⟩ := List.getElem?_eq_some_iff.mp here
    refine ⟨inside, same, fun j before again => ?_⟩
    obtain ⟨p, f, k, block'', found'', rfl⟩ :=
      getElem?_cellWords.mp (List.getElem?_eq_some_iff.mpr ⟨before.trans inside, again⟩)
    exact absurd (least block'' found'') (Nat.not_le_of_lt before)
  rw [variableLabel?, index]
  rfl

theorem variableLabel?_inj {base' : Nat} {es' : List Element} {name' : String}
    (label : variableLabel? es base name = some x)
    (label' : variableLabel? es' base' name' = some y) :
    ∃ a a', (cellWords es)[a]? = some (some (.var name)) ∧
      (cellWords es')[a']? = some (some (.var name')) ∧ (x = y ↔ base + a = base' + a') := by
  obtain ⟨a, first, rfl⟩ := Option.map_eq_some_iff.mp label
  obtain ⟨a', first', rfl⟩ := Option.map_eq_some_iff.mp label'
  obtain ⟨inside, same, -⟩ := List.idxOf?_eq_some_iff.mp first
  obtain ⟨inside', same', -⟩ := List.idxOf?_eq_some_iff.mp first'
  refine ⟨a, a', List.getElem?_eq_some_iff.mpr ⟨inside, same⟩,
    List.getElem?_eq_some_iff.mpr ⟨inside', same'⟩, ?_, fun same => by rw [same]⟩
  intro labels
  rw [Term.label.injEq, String.append_right_inj] at labels
  exact Nat.repr_inj.mp labels

/-! ### Equations -/

theorem exists_equation (e : equation? es name = some ws) :
    ∃ o, BlockAt es o (.holds name :: ws) := by
  obtain ⟨element, member, which⟩ := List.exists_of_findSome?_eq_some e
  split at which
  · split at which
    · next same =>
      cases which
      subst same
      exact exists_blockAt member
    · cases which
  · cases which

theorem equation?_ne_none (block : BlockAt es o (.holds name :: ws)) :
    equation? es name ≠ none := by
  intro none
  have all := List.findSome?_eq_none_iff.mp none _ block.mem
  simp at all

/-- A word of an element has a term if it has no equation, or its equation has one. -/
theorem BlockAt.exists_termWith {inner : List Word → Option Term} (block : BlockAt es o e)
    (member : w ∈ contentOf e) (plain : w.Plain t)
    (deeper : ∀ name ws, w = .var name → equation? es name = some ws → ∃ x, inner ws = some x) :
    ∃ x, w.termWith es base inner = some x := by
  cases w with
  | const name => exact ⟨_, rfl⟩
  | number n => exact ⟨_, rfl⟩
  | var name =>
    unfold Word.termWith
    dsimp only
    split
    · next ws equation => exact deeper name ws rfl equation
    · obtain ⟨i, found⟩ := List.mem_iff_getElem?.mp member
      have here := getElem?_cellWords.mpr ⟨o, e, i, block, found, rfl⟩
      obtain ⟨a, first⟩ := Option.isSome_iff_exists.mp
        (List.isSome_idxOf?.mpr (List.mem_of_getElem? here))
      exact ⟨_, by rw [variableLabel?, first]; rfl⟩
  | holds name => exact plain.elim
  | lists name => exact plain.elim

/-- The words of an element make an array while its equations nest at most so deep. -/
theorem BlockAt.exists_array (base : Nat) (block : BlockAt es o e)
    (plain : ∀ w ∈ es.flatMap contentOf, w.Plain t) (nests : Nests es depth (contentOf e)) :
    ∃ x, arrayWithin es base (depth + 1) (contentOf e) = some x := by
  have words {depth o : Nat} {e : Element} (block : BlockAt es o e)
      (deeper : ∀ name ws, .var name ∈ contentOf e → equation? es name = some ws →
        ∃ x, arrayWithin es base depth ws = some x) :
      ∃ x, arrayWithin es base (depth + 1) (contentOf e) = some x := by
    have each (w : Word) (member : w ∈ contentOf e) :
        ∃ x, w.termWith es base (arrayWithin es base depth) = some x :=
      block.exists_termWith member (plain w (List.mem_flatMap.mpr ⟨e, block.mem, member⟩))
        fun name ws same => deeper name ws (same ▸ member)
    obtain ⟨xs, terms⟩ := exists_forall₂ each
    exact ⟨_, arrayWithin_succ.mpr ⟨xs, rfl, terms⟩⟩
  induction depth generalizing o e with
  | zero =>
    refine words block fun name ws member equation => ?_
    rw [nests name member] at equation
    cases equation
  | succ depth ih =>
    refine words block fun name ws member equation => ?_
    obtain ⟨f, target⟩ := exists_equation equation
    exact ih target (nests name ws member equation)

/-- The equation of a name is where the layout anchors it. -/
theorem equation?_cases (unambiguous : (layoutOf t es).ambiguous? = none) (name : String) :
    (∃ f ws, equation? es name = some ws ∧ (layoutOf t es).anchorOf? name = some f ∧
      BlockAt es f (.holds name :: ws)) ∨
    (equation? es name = none ∧ (layoutOf t es).anchorOf? name = none) := by
  cases e : equation? es name with
  | some ws =>
    obtain ⟨o, block⟩ := exists_equation e
    obtain ⟨f, anchored⟩ := Layout.exists_anchorOf? (t := t) block
    obtain ⟨ws', block'⟩ := Layout.anchorOf?_eq_some anchored
    obtain rfl := Layout.anchor_unique unambiguous block block'
    exact .inl ⟨o, ws, rfl, anchored, block⟩
  | none =>
    refine .inr ⟨rfl, ?_⟩
    cases anchored : (layoutOf t es).anchorOf? name with
    | none => rfl
    | some f =>
      obtain ⟨ws, block⟩ := Layout.anchorOf?_eq_some anchored
      exact absurd e (equation?_ne_none block)

end HornMachine
