import HornMachine.Proofs.SentenceDefects
import Mathlib.Data.List.Find

/-!
# Renaming variables

The names of variables only say which words belong together. Elements whose variables
are renamed, different ones to different names, are laid out in the same cells with the
same goals, and link if the elements did.
-/
namespace HornMachine

def Word.rename (ρ : String → String) : Word → Word
  | .const name => .const name
  | .number n => .number n
  | .var name => .var (ρ name)
  | .holds name => .holds (ρ name)
  | .lists name => .lists (ρ name)

/-- The variable a word names. -/
def Word.variable? : Word → Option String
  | .var name => some name
  | .holds name => some name
  | .lists name => some name
  | _ => none

def Sentence.rename (ρ : String → String) (es : Sentence) : Sentence :=
  es.map (List.map (Word.rename ρ))

def Slot.rename (ρ : String → String) : Slot → Slot
  | .fixed c => .fixed c
  | .variable name => .variable (ρ name)

def Mention.rename (ρ : String → String) (m : Mention) : Mention := { m with name := ρ m.name }

/-- The layout with other names. -/
def Layout.rename (ρ : String → String) (l : Layout) : Layout where
  slots := l.slots.map (Slot.rename ρ)
  mentions := l.mentions.map (Mention.rename ρ)
  goals := l.goals

variable {ρ : String → String} {t : Symbols} {es : Sentence}

theorem Word.rename_eq_self {w : Word} (fixed : ∀ x, w.variable? = some x → ρ x = x) :
    w.rename ρ = w := by
  cases w with
  | const _ => rfl
  | number _ => rfl
  | var x => exact congrArg Word.var (fixed x rfl)
  | holds x => exact congrArg Word.holds (fixed x rfl)
  | lists x => exact congrArg Word.lists (fixed x rfl)

theorem Sentence.rename_eq_self
    (fixed : ∀ w ∈ es.flatten, ∀ x, w.variable? = some x → ρ x = x) : es.rename ρ = es := by
  have element (e : Element) (there : e ∈ es) : e.map (Word.rename ρ) = e := by
    have words : e.map (Word.rename ρ) = e.map id := List.map_congr_left fun w inside =>
      Word.rename_eq_self (fixed w (List.mem_flatten.mpr ⟨e, there, inside⟩))
    rw [words, List.map_id]
  have elements : es.rename ρ = es.map id := List.map_congr_left element
  rw [elements, List.map_id]

/-! ### The layout -/

theorem contentOf_rename (ρ : String → String) (e : Element) :
    contentOf (e.map (Word.rename ρ)) = (contentOf e).map (Word.rename ρ) := by
  cases e with
  | nil => rfl
  | cons w ws => cases w <;> rfl

theorem isEquation_rename (ρ : String → String) (e : Element) :
    isEquation (e.map (Word.rename ρ)) = isEquation e := by
  cases e with
  | nil => rfl
  | cons w ws => cases w <;> rfl

theorem blockSize_rename (ρ : String → String) (e : Element) :
    blockSize (e.map (Word.rename ρ)) = blockSize e := by
  simp [blockSize, contentOf_rename]

theorem blockOf_rename (ρ : String → String) (t : Symbols) (e : Element) :
    blockOf t (e.map (Word.rename ρ)) = (blockOf t e).map (Slot.rename ρ) := by
  have slot (w : Word) : Slot.of t (w.rename ρ) = (Slot.of t w).rename ρ := by cases w <;> rfl
  simp only [blockOf, contentOf_rename, List.length_map, List.map_cons, List.map_map, Slot.rename,
    Function.comp_def, slot]

theorem wordMentions_rename (ρ : String → String) (a : Nat) (ws : List Word) :
    wordMentions a (ws.map (Word.rename ρ)) = (wordMentions a ws).map (Mention.rename ρ) := by
  induction ws generalizing a with
  | nil => rfl
  | cons w ws ih =>
    cases w with
    | var name => exact congrArg (_ :: ·) (ih (a + 1))
    | _ => exact ih (a + 1)

theorem elementMentions_rename (ρ : String → String) (a : Nat) (e : Element) :
    elementMentions a (e.map (Word.rename ρ)) =
      (elementMentions a e).map (Mention.rename ρ) := by
  cases e with
  | nil => rfl
  | cons w ws =>
    cases w with
    | holds name => exact congrArg (_ :: ·) (wordMentions_rename ρ (a + 1) ws)
    | _ => exact wordMentions_rename ρ (a + 1) (_ :: ws)

theorem mentionsFrom_rename (ρ : String → String) (a : Nat) (es : Sentence) :
    mentionsFrom a (es.rename ρ) = (mentionsFrom a es).map (Mention.rename ρ) := by
  induction es generalizing a with
  | nil => rfl
  | cons e es ih =>
    rw [Sentence.rename, List.map_cons, mentionsFrom, elementMentions_rename, blockSize_rename,
      ← Sentence.rename, ih, mentionsFrom, List.map_append]

theorem goalsFrom_rename (ρ : String → String) (a : Nat) (es : Sentence) :
    goalsFrom a (es.rename ρ) = goalsFrom a es := by
  induction es generalizing a with
  | nil => rfl
  | cons e es ih =>
    rw [Sentence.rename, List.map_cons, goalsFrom, isEquation_rename, blockSize_rename,
      ← Sentence.rename, ih, goalsFrom]

theorem layoutOf_rename (ρ : String → String) (t : Symbols) (es : Sentence) :
    layoutOf t (es.rename ρ) = (layoutOf t es).rename ρ := by
  have slots : (es.rename ρ).flatMap (blockOf t) = (es.flatMap (blockOf t)).map (Slot.rename ρ) := by
    simp only [Sentence.rename, List.flatMap_map, blockOf_rename, List.map_flatMap]
  simp only [layoutOf, Layout.rename, slots, mentionsFrom_rename, goalsFrom_rename,
    List.map_toArray]

/-! ### The code -/

namespace Layout

variable {l : Layout} {name : String}

/-- Renaming keeps the names mentioned in a layout apart. -/
def KeepsApart (ρ : String → String) (l : Layout) : Prop :=
  ∀ m ∈ l.mentions, ∀ n ∈ l.mentions, ρ m.name = ρ n.name → m.name = n.name

theorem find?_rename {p q : Mention → Bool}
    (same : ∀ m ∈ l.mentions, p (m.rename ρ) = q m) :
    ((l.rename ρ).mentions.find? p).map (·.addr) = (l.mentions.find? q).map (·.addr) := by
  have same : l.mentions.toList.find? (p ∘ Mention.rename ρ) = l.mentions.toList.find? q :=
    List.find?_congr fun m member => same m (Array.mem_toList_iff.mp member)
  rw [rename, Array.find?_map, Option.map_map, ← Array.find?_toList, ← Array.find?_toList, same]
  rfl

theorem resolve_rename (apart : KeepsApart ρ l) {n : Mention} (member : n ∈ l.mentions) (a : Nat) :
    (l.rename ρ).resolve (ρ n.name) a = l.resolve n.name a := by
  have same (m : Mention) (there : m ∈ l.mentions) :
      decide (ρ m.name = ρ n.name) = decide (m.name = n.name) :=
    decide_eq_decide.mpr ⟨apart m there n member, congrArg ρ⟩
  have anchors : (l.rename ρ).anchorOf? (ρ n.name) = l.anchorOf? n.name :=
    find?_rename fun m there => congrArg (m.anchor && ·) (same m there)
  have firsts : (l.rename ρ).firstOf? (ρ n.name) = l.firstOf? n.name := find?_rename same
  rw [resolve, resolve, anchors, firsts]

theorem code_rename (apart : KeepsApart ρ l)
    (mentioned : ∀ name, .variable name ∈ l.slots → ∃ m ∈ l.mentions, m.name = name) :
    (l.rename ρ).code = l.code := by
  have cells : (l.rename ρ).cells = l.cells := by
    apply Array.ext_getElem?
    intro a
    have slots : (l.rename ρ).slots[a]? = (l.slots[a]?).map (Slot.rename ρ) := Array.getElem?_map
    rw [getElem?_cells, getElem?_cells, slots, Option.map_map]
    refine Option.map_congr fun slot found => ?_
    match slot with
    | .fixed c => rfl
    | .variable name =>
      obtain ⟨m, member, rfl⟩ := mentioned name (Array.mem_of_getElem? found)
      exact resolve_rename apart member a
  have size : (l.rename ρ).slots.size = l.slots.size := by simp [rename]
  rw [code, code, cells, neck, neck, size]
  rfl

theorem anchorNames_rename (ρ : String → String) (l : Layout) :
    (l.rename ρ).anchorNames = l.anchorNames.map ρ := by
  simp only [anchorNames, rename, Array.toList_map, List.filter_map, List.map_map]
  rfl

theorem ambiguous?_rename (apart : KeepsApart ρ l) (unambiguous : l.ambiguous? = none) :
    (l.rename ρ).ambiguous? = none := by
  rw [ambiguous?_eq_none, anchorNames_rename] at *
  refine List.Nodup.map_on ?_ unambiguous
  have mentioned {x : String} (member : x ∈ l.anchorNames) : ∃ m ∈ l.mentions, m.name = x := by
    obtain ⟨m, there, rfl⟩ := List.mem_map.mp member
    exact ⟨m, Array.mem_toList_iff.mp (List.mem_of_mem_filter there), rfl⟩
  intro x memberX y memberY same
  obtain ⟨m, there, rfl⟩ := mentioned memberX
  obtain ⟨n, there', rfl⟩ := mentioned memberY
  exact apart m there n there' same

theorem exists_mention {name : String} (member : .variable name ∈ (layoutOf t es).slots)
    (plain : ∀ w ∈ es.flatMap contentOf, w.Plain t) :
    ∃ m ∈ (layoutOf t es).mentions, m.name = name := by
  obtain ⟨e, there, inside⟩ := List.mem_flatMap.mp (List.mem_toArray.mp member)
  obtain ⟨w, content, same⟩ : ∃ w ∈ contentOf e, Slot.of t w = .variable name := by
    simpa [blockOf] using inside
  obtain ⟨o, block⟩ := exists_blockAt there
  obtain ⟨i, found⟩ := List.mem_iff_getElem?.mp content
  have plain := plain w (List.mem_flatMap.mpr ⟨e, there, content⟩)
  cases w with
  | const _ => cases same
  | number _ => cases same
  | var name' =>
    cases same
    exact ⟨_, mem_mentions_var block found, rfl⟩
  | holds _ => exact plain.elim
  | lists _ => exact plain.elim

end Layout

/-- Elements that link also link when they are renamed, to the same code. -/
theorem Sentence.ofSentence_rename {s s' : Sentence} {symbols : Symbols} {code : ClauseCode}
    (linked : ClauseCode.ofSentence s symbols = (.ok code, t)) (expanded : s.expandLists = .ok es)
    (expanded' : s'.expandLists = .ok (es.rename ρ))
    (apart : ∀ t, Layout.KeepsApart ρ (layoutOf t es)) :
    ClauseCode.ofSentence s' symbols = (.ok code, t) := by
  obtain ⟨es', again, table, links⟩ := Linking.link_links linked
  obtain rfl := Except.ok.inj (expanded.symm.trans again)
  obtain ⟨valid, rfl, plain, ⟨head, body, rfl, goal⟩, unambiguous⟩ := links t (.refl t)
  have same : (layoutOf t (Sentence.rename ρ (head :: body))).code = (layoutOf t (head :: body)).code := by
    rw [layoutOf_rename]
    exact Layout.code_rename (apart t) fun name member => Layout.exists_mention member plain
  have content : (Sentence.rename ρ (head :: body)).flatMap contentOf =
      ((head :: body).flatMap contentOf).map (Word.rename ρ) := by
    simp only [Sentence.rename, List.flatMap_map, contentOf_rename, List.map_flatMap]
  rw [← same]
  refine ofSentence_eq expanded' (not_misuse (t := t) ?_ ?_ ?_) ?_ (same ▸ valid)
  · intro e first
    obtain rfl : head.map (Word.rename ρ) = e := by simpa [Sentence.rename] using first
    rwa [isEquation_rename]
  · rw [content]
    intro w member
    obtain ⟨w, inside, rfl⟩ := List.mem_map.mp member
    have known := plain w inside
    cases w <;> exact known
  · rw [layoutOf_rename]
    exact Layout.ambiguous?_rename (apart t) unambiguous
  · have constant : Word.constant? ∘ Word.rename ρ = Word.constant? := by
      funext w
      cases w <;> rfl
    rw [content, List.filterMap_map, constant, table]

end HornMachine
