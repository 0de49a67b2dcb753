import HornMachine.Proofs.ListChains

/-!
# The names inside a list

The chain that stands for a list of `n` items named `X` gives names to what is left
behind its items: `X__1` and so on, up to `n - 1`. Other names do as well, and the same
code comes out, exactly if these are nowhere else: no variable of the sentence is called
`X__1`, or it would be bound to the rest of the list, and none of the other names is one
that a second list makes up.
-/
namespace HornMachine

namespace Sentence

variable {s es before after : Sentence} {name x : String} {items : List Word} {w : Word}
  {rest rest' : Nat → String} {i k : Nat} {symbols t : Symbols} {code : ClauseCode}

/-! ### Expanded elements that link -/

theorem nodup_heldNames (linked : ClauseCode.ofSentence s symbols = (.ok code, t))
    (expanded : s.expandLists = .ok es) : es.heldNames.Nodup := by
  rw [List.nodup_iff_count_le_one]
  intro name
  by_contra more
  have linked : (ClauseCode.ofSentence s symbols).1 = .ok code := by rw [linked]
  exact not_defect_of_ok linked _ (.misuse expanded (.ambiguous (Nat.lt_of_not_le more)))

theorem not_marker_of_mem_tail (linked : ClauseCode.ofSentence s symbols = (.ok code, t))
    (expanded : s.expandLists = .ok es) {e : Element} (there : e ∈ es) (marker : Marker) :
    marker.word name ∉ e.tail := by
  intro inside
  have linked : (ClauseCode.ofSentence s symbols).1 = .ok code := by rw [linked]
  exact not_defect_of_ok linked _ (.misuse expanded (.innerMarker there inside))

theorem not_lists_mem (linked : ClauseCode.ofSentence s symbols = (.ok code, t))
    (expanded : s.expandLists = .ok es) : .lists name ∉ es.flatten := by
  intro member
  obtain ⟨e, there, inside⟩ := List.mem_flatten.mp member
  cases e with
  | nil => cases inside
  | cons w words =>
    rcases List.mem_cons.mp inside with same | inside
    · obtain ⟨-, rfl⟩ := expandLists_eq_ok.mp expanded
      obtain ⟨source, -, there⟩ := List.mem_flatMap.mp there
      exact not_lists_of_mem_expansion there name words (by rw [same])
    · exact not_marker_of_mem_tail linked expanded there .lists inside

/-! ### A list and a chain in its place -/

/-- The expanded elements of `before` and `after`, with others between them. -/
def framed (before after es : Sentence) : Sentence :=
  before.flatMap expansion ++ (es ++ after.flatMap expansion)

theorem mem_framed : w ∈ (framed before after es).flatten ↔
    w ∈ ((before ++ after).flatMap expansion).flatten ∨ w ∈ es.flatten := by
  simp only [framed, List.flatten_append, List.flatMap_append, List.mem_append]
  tauto

theorem expandLists_list
    (linked : ClauseCode.ofSentence (before ++ (.lists name :: items) :: after) symbols =
      (.ok code, t)) :
    (before ++ (.lists name :: items) :: after).expandLists =
      .ok (framed before after (chain (restName name) 0 items)) := by
  obtain ⟨es, expanded, -⟩ := Linking.link_links linked
  obtain ⟨-, rfl⟩ := expandLists_eq_ok.mp expanded
  rw [expanded, framed, List.flatMap_append, List.flatMap_cons, expansion, listChain_eq_chain]

theorem expandLists_chain
    (linked : ClauseCode.ofSentence (before ++ (.lists name :: items) :: after) symbols =
      (.ok code, t)) (rest : Nat → String) :
    (before ++ chain rest 0 items ++ after).expandLists =
      .ok (framed before after (chain rest 0 items)) := by
  obtain ⟨nonempty, -⟩ := expandLists_eq_ok.mp (expandLists_list linked)
  refine expandLists_eq_ok.mpr ⟨fun name' => ?_, ?_⟩
  · intro member
    simp only [List.mem_append] at member
    rcases member with (there | inside) | there
    · exact nonempty name' (List.mem_append_left _ there)
    · rw [← flatMap_expansion_chain] at inside
      obtain ⟨e, -, inside⟩ := List.mem_flatMap.mp inside
      exact not_lists_of_mem_expansion inside name' [] rfl
    · exact nonempty name' (List.mem_append_right _ (List.mem_cons_of_mem _ there))
  · simp only [framed, List.flatMap_append, flatMap_expansion_chain, List.append_assoc]

theorem not_held_outside (once : (framed before after es).heldNames.Nodup)
    (inside : .holds x ∈ es.flatten) :
    .holds x ∉ ((before ++ after).flatMap expansion).flatten := by
  simp only [framed, heldNames, List.flatten_append, List.filterMap_append] at once
  obtain ⟨-, later, apart⟩ := List.nodup_append.mp once
  obtain ⟨-, -, apart'⟩ := List.nodup_append.mp later
  have held := mem_heldNames.mpr inside
  intro outside
  rw [List.flatMap_append, List.flatten_append, List.mem_append] at outside
  rcases outside with first | last
  · exact apart x (mem_heldNames.mpr first) x (List.mem_append_left _ held) rfl
  · exact apart' x held x (mem_heldNames.mpr last) rfl

/-! ### Other names for the rests -/

/-- The names of the rests of a list of `n` items replaced by others. -/
def respell (name : String) (n : Nat) (rest : Nat → String) (x : String) : String :=
  match (List.range n).find? (restName name · = x) with
  | some i => rest i
  | none => x

theorem respell_rest {n : Nat} (short : i < n) : respell name n rest (restName name i) = rest i := by
  unfold respell
  cases found : (List.range n).find? (restName name · = restName name i) with
  | none => simpa using List.find?_eq_none.mp found i (List.mem_range.mpr short)
  | some k =>
    have same : restName name k = restName name i := by simpa using List.find?_some found
    rw [restName_inj same]

theorem respell_cases (name : String) (n : Nat) (rest : Nat → String) (x : String) :
    (∃ i, i < n ∧ x = restName name i ∧ respell name n rest x = rest i) ∨
      (∀ i, i < n → restName name i ≠ x) ∧ respell name n rest x = x := by
  by_cases other : ∀ i, i < n → restName name i ≠ x
  · have none : (List.range n).find? (restName name · = x) = none := by
      rw [List.find?_eq_none]
      intro i member
      simpa using other i (List.mem_range.mp member)
    refine .inr ⟨other, ?_⟩
    rw [respell, none]
  · obtain ⟨i, short, rfl⟩ : ∃ i, i < n ∧ restName name i = x := by simpa using other
    exact .inl ⟨i, short, rfl, respell_rest short⟩

/-- Names are kept apart unless one that stays is among the new ones. -/
theorem respell_inj {n : Nat} {y : String}
    (distinct : ∀ i j, i < n → j < n → rest i = rest j → i = j)
    (apart : ∀ i, i < n → ∀ z, z = x ∨ z = y → (∀ k, k < n → restName name k ≠ z) → rest i ≠ z)
    (same : respell name n rest x = respell name n rest y) : x = y := by
  rcases respell_cases name n rest x with ⟨i, short, is, new⟩ | ⟨other, new⟩ <;>
    rcases respell_cases name n rest y with ⟨k, short', is', new'⟩ | ⟨other', new'⟩ <;>
    rw [new, new'] at same
  · rw [is, is', distinct i k short short' same]
  · exact absurd same (apart i short y (.inr rfl) other')
  · exact absurd same.symm (apart k short' x (.inl rfl) other)
  · exact same

/-- Renaming that keeps what is outside, and the items, only changes the chain. -/
theorem rename_framed {ρ : String → String}
    (outside : ∀ w ∈ ((before ++ after).flatMap expansion).flatten,
      ∀ x, w.variable? = some x → ρ x = x)
    (item : ∀ w ∈ items, ∀ x, w.variable? = some x → ρ x = x)
    (rests : ∀ i, i < items.length → ρ (rest i) = rest' i) :
    (framed before after (chain rest 0 items)).rename ρ =
      framed before after (chain rest' 0 items) := by
  have kept {part : Sentence} (inside : ∀ e ∈ part, e ∈ before ++ after) :
      rename ρ (part.flatMap expansion) = part.flatMap expansion := by
    refine rename_eq_self fun w member => outside w ?_
    obtain ⟨e', expanded, member⟩ := List.mem_flatten.mp member
    obtain ⟨e, there, expanded⟩ := List.mem_flatMap.mp expanded
    exact List.mem_flatten.mpr ⟨e', List.mem_flatMap.mpr ⟨e, inside e there, expanded⟩, member⟩
  have same : items.map (Word.rename ρ) = items.map id :=
    List.map_congr_left fun w member => Word.rename_eq_self (item w member)
  have middle : (chain rest 0 items).rename ρ = chain rest' 0 items := by
    rw [chain_rename, same, List.map_id]
    refine chain_congr fun k short => ?_
    rw [Nat.zero_add]
    exact rests k short
  have first := kept fun e => List.mem_append_left after
  have last := kept fun e => List.mem_append_right before
  unfold rename at *
  rw [framed, List.map_append, List.map_append, first, middle, last, framed]

theorem name_cases
    (member : w ∈ (framed before after (chain (restName name) 0 items)).flatten)
    (named : w.variable? = some x) :
    Mentions (before ++ (.lists name :: items) :: after) x ∨ MakesUp (before ++ after) x ∨
      ∃ i, i < items.length ∧ x = restName name i := by
  have written {w : Word} (inside : w ∈ (before ++ after).flatten ∨ w ∈ items)
      (named : w.variable? = some x) : Mentions (before ++ (.lists name :: items) :: after) x := by
    refine ⟨w, ?_, named⟩
    simp only [List.flatten_append, List.flatten_cons, List.mem_append, List.mem_cons] at inside ⊢
    tauto
  rcases mem_framed.mp member with outside | inside
  · rcases mentions_or_makesUp outside named with ⟨w, there, named⟩ | made
    · exact .inl (written (.inl there) named)
    · exact .inr (.inl made)
  · rcases variable_chain inside named with item | ⟨i, short, same⟩
    · exact .inl (written (.inr item) named)
    · exact .inr (.inr ⟨i, short, same⟩)

theorem exists_word_of_mention {m : Mention} (member : m ∈ (layoutOf t es).mentions) :
    ∃ w ∈ es.flatten, w.variable? = some m.name := by
  obtain ⟨o, e, block, member⟩ := mem_mentions.mp member
  rcases mem_elementMentions.mp member with ⟨-, ⟨ws, rfl⟩, -⟩ | ⟨-, i, found, -⟩
  · exact ⟨_, List.mem_flatten.mpr ⟨_, block.mem, List.mem_cons_self ..⟩, rfl⟩
  · have content := List.mem_of_getElem? found
    exact ⟨_, List.mem_flatten.mpr ⟨e, block.mem, mem_of_mem_contentOf content⟩, rfl⟩

variable
  (linked : ClauseCode.ofSentence (before ++ (.lists name :: items) :: after) symbols = (.ok code, t))
  (start : rest 0 = name)
  (fresh : ∀ i, 0 < i → i < items.length →
    ¬ Mentions (before ++ (.lists name :: items) :: after) (rest i))

include linked in
/-- Names of rests that are not written outside the chain are not there at all. -/
theorem ne_restName_of_free
    (free : ∀ i, 0 < i → i < items.length →
      .var (restName name i) ∉ (before ++ (.lists name :: items) :: after).flatten)
    (member : w ∈ ((before ++ after).flatMap expansion).flatten ∨ w ∈ items)
    (named : w.variable? = some x) (positive : 0 < i) (short : i < items.length) :
    restName name i ≠ x := by
  rintro rfl
  have expanded := expandLists_list linked
  have written (inside : .var (restName name i) ∈ (before ++ after).flatten ∨
      .var (restName name i) ∈ items) : False := by
    refine free i positive short ?_
    simp only [List.flatten_append, List.flatten_cons, List.mem_append, List.mem_cons] at inside ⊢
    tauto
  rcases member with outside | item
  · have unheld : .holds (restName name i) ∉ ((before ++ after).flatMap expansion).flatten :=
      not_held_outside (nodup_heldNames linked expanded) (holds_mem_chain (restName name) short)
    cases w with
    | const _ => cases named
    | number _ => cases named
    | var x =>
      cases named
      rcases variable_expanded outside rfl with inside | ⟨name', items', k, there, short', same⟩
      · exact written (.inl inside)
      · exact unheld (same ▸ holds_mem_expanded there short')
    | holds x =>
      cases named
      exact unheld outside
    | lists x => exact not_lists_mem linked expanded (mem_framed.mpr (.inl outside))
  · obtain ⟨e, there, inside⟩ := mem_tail_chain (restName name) 0 item
    have unmarked (marker : Marker) (x : String) : marker.word x ∉ e.tail := by
      refine not_marker_of_mem_tail linked expanded ?_ marker
      exact List.mem_append_right _ (List.mem_append_left _ there)
    cases w with
    | const _ => cases named
    | number _ => cases named
    | var x =>
      cases named
      exact written (.inr item)
    | holds x => exact unmarked .holds x inside
    | lists x => exact unmarked .lists x inside

include linked start fresh in
/-- A chain whose names are nowhere else links like the list. -/
theorem ofSentence_chain
    (distinct : ∀ i j, i < items.length → j < items.length → rest i = rest j → i = j)
    (free : ∀ i, 0 < i → i < items.length →
      .var (restName name i) ∉ (before ++ (.lists name :: items) :: after).flatten)
    (unmade : ∀ i, 0 < i → i < items.length → ¬ MakesUp (before ++ after) (rest i)) :
    ClauseCode.ofSentence (before ++ chain rest 0 items ++ after) symbols = (.ok code, t) := by
  have fixed (w : Word)
      (member : w ∈ ((before ++ after).flatMap expansion).flatten ∨ w ∈ items) (x : String)
      (named : w.variable? = some x) : respell name items.length rest x = x := by
    rcases respell_cases name items.length rest x with ⟨i, short, same, new⟩ | ⟨-, stays⟩
    · cases i with
      | zero => rw [new, start, same, restName, if_pos rfl]
      | succ i =>
        exact absurd same.symm
          (ne_restName_of_free linked free member named i.succ_pos short)
    · exact stays
  have renamed : (framed before after (chain (restName name) 0 items)).rename
      (respell name items.length rest) = framed before after (chain rest 0 items) :=
    rename_framed (fun w member => fixed w (.inl member)) (fun w member => fixed w (.inr member))
      fun i short => respell_rest short
  refine ofSentence_rename linked (expandLists_list linked)
    (renamed ▸ expandLists_chain linked rest) fun t m member n member' => respell_inj distinct ?_
  intro i short z which other same
  subst same
  cases i with
  | zero => exact other 0 short start.symm
  | succ i =>
    obtain ⟨w, inside, named⟩ : ∃ w ∈ (framed before after (chain (restName name) 0 items)).flatten,
        w.variable? = some (rest (i + 1)) := by
      rcases which with same | same <;> rw [same]
      · exact exists_word_of_mention member
      · exact exists_word_of_mention member'
    rcases name_cases inside named with written | made | ⟨k, short', same⟩
    · exact fresh _ i.succ_pos short written
    · exact unmade _ i.succ_pos short made
    · exact other k short' same.symm

/-! ### What the names must not be -/

theorem var_mem_contentOf {e : Element} (inside : .var x ∈ e) : .var x ∈ contentOf e := by
  cases e with
  | nil => cases inside
  | cons w words =>
    cases w with
    | holds name => exact List.mem_of_ne_of_mem (by simp) inside
    | _ => exact inside

/-- The variables that are written have places that do not depend on the names of rests. -/
theorem exists_slot (t : Symbols)
    (written : .var x ∈ (before ++ (.lists name :: items) :: after).flatten) :
    ∃ a : Nat, ∀ rest, (layoutOf t (framed before after (chain rest 0 items))).slots[a]? =
      some (Slot.variable x) := by
  have place {part : Sentence} (written : .var x ∈ part.flatten) :
      ∃ a : Nat, ((part.flatMap expansion).flatMap (blockOf t))[a]? = some (Slot.variable x) := by
    rw [← List.mem_iff_getElem?]
    obtain ⟨e, there, word⟩ := List.mem_flatten.mp written
    obtain ⟨e', there', content⟩ : ∃ e' ∈ expansion e, .var x ∈ contentOf e' := by
      rcases expansion_cases e with ⟨single, -⟩ | ⟨name, words, rfl, expanded⟩
      · exact ⟨e, by rw [single]; exact List.mem_singleton_self e, var_mem_contentOf word⟩
      · obtain ⟨e', there', inside⟩ := mem_tail_chain (restName name) 0
          (List.mem_of_ne_of_mem (by simp) word)
        rw [expanded, listChain_eq_chain]
        exact ⟨e', there', mem_contentOf_of_tail inside⟩
    refine List.mem_flatMap.mpr ⟨e', List.mem_flatMap.mpr ⟨e, there, there'⟩, ?_⟩
    exact List.mem_cons_of_mem _ (List.mem_map_of_mem content)
  have slots (rest : Nat → String) (a : Nat) :
      (layoutOf t (framed before after (chain rest 0 items))).slots[a]? =
        ((before.flatMap expansion).flatMap (blockOf t) ++
          ((chain rest 0 items).flatMap (blockOf t) ++
            (after.flatMap expansion).flatMap (blockOf t)))[a]? := by
    simp only [layoutOf, framed, List.flatMap_append, List.getElem?_toArray]
  simp only [slots]
  have split : .var x ∈ before.flatten ∨ .var x ∈ items ∨ .var x ∈ after.flatten := by
    simpa using written
  rcases split with first | item | last
  · obtain ⟨a, found⟩ := place first
    refine ⟨a, fun rest => ?_⟩
    rw [List.getElem?_append_left (List.getElem?_eq_some_iff.mp found).choose, found]
  · obtain ⟨k, found⟩ := List.mem_iff_getElem?.mp item
    have short := (List.getElem?_eq_some_iff.mp found).choose
    refine ⟨((before.flatMap expansion).flatMap (blockOf t)).length + (4 * k + 2), fun rest => ?_⟩
    rw [List.getElem?_append_right (Nat.le_add_right ..), Nat.add_sub_cancel_left,
      List.getElem?_append_left (by rw [length_slots_chain]; omega), slot_chain, found]
    rfl
  · obtain ⟨a, found⟩ := place last
    refine ⟨((before.flatMap expansion).flatMap (blockOf t)).length + (4 * items.length + a),
      fun rest => ?_⟩
    rw [List.getElem?_append_right (Nat.le_add_right ..), Nat.add_sub_cancel_left,
      List.getElem?_append_right (by rw [length_slots_chain]; omega), length_slots_chain,
      Nat.add_sub_cancel_left, found]

/-- The variables with an equation are resolved to references to structures. -/
theorem tag_resolve {s : Sentence} (linked : ClauseCode.ofSentence s symbols = (.ok code, t))
    (expanded : s.expandLists = .ok es) (a : Nat) :
    ((layoutOf t es).resolve x a).tag = .structRef ↔ .holds x ∈ es.flatten := by
  unfold Layout.resolve
  cases anchored : (layoutOf t es).anchorOf? x with
  | some f =>
    obtain ⟨ws, block⟩ := Layout.anchorOf?_eq_some anchored
    have held : .holds x ∈ es.flatten :=
      List.mem_flatten.mpr ⟨_, block.mem, List.mem_cons_self ..⟩
    simp [held]
  | none =>
    have unheld : .holds x ∉ es.flatten := by
      intro held
      obtain ⟨e, there, inside⟩ := List.mem_flatten.mp held
      cases e with
      | nil => cases inside
      | cons w ws =>
        rcases List.mem_cons.mp inside with rfl | inside
        · obtain ⟨o, block⟩ := exists_blockAt there
          obtain ⟨f, anchored'⟩ := Layout.exists_anchorOf? (t := t) block
          rw [anchored] at anchored'
          cases anchored'
        · exact not_marker_of_mem_tail linked expanded there .holds inside
    simp only [unheld, iff_false]
    split
    · split <;> simp
    · simp

include linked start fresh in
/-- When a list and a chain link to the same code, no variable that is written is called
like the rest of the list. -/
theorem free_of_ofSentence
    (same : ClauseCode.ofSentence (before ++ chain rest 0 items ++ after) symbols = (.ok code, t))
    (positive : 0 < i) (short : i < items.length) :
    .var (restName name i) ∉ (before ++ (.lists name :: items) :: after).flatten := by
  intro written
  have expanded := expandLists_list linked
  have expanded' := expandLists_chain linked rest
  obtain ⟨a, slot⟩ := exists_slot t written
  have cells : (layoutOf t (framed before after (chain (restName name) 0 items))).cells =
      (layoutOf t (framed before after (chain rest 0 items))).cells := by
    obtain ⟨es, again, -, links⟩ := Linking.link_links linked
    obtain rfl := Except.ok.inj (expanded.symm.trans again)
    obtain ⟨es', again', -, links'⟩ := Linking.link_links same
    obtain rfl := Except.ok.inj (expanded'.symm.trans again')
    exact congrArg ClauseCode.cells ((links t (.refl t)).code.symm.trans (links' t (.refl t)).code)
  have resolved := congrArg (·[a]?) cells
  simp only [Layout.getElem?_cells, slot, Option.map_some, Option.some.injEq,
    Layout.slotCell] at resolved
  have held : .holds (restName name i) ∈ (chain (restName name) 0 items).flatten :=
    holds_mem_chain (restName name) short
  have held' : .holds (restName name i) ∈ (framed before after (chain rest 0 items)).flatten := by
    rw [← tag_resolve same expanded' a, ← resolved, tag_resolve linked expanded a]
    exact mem_framed.mpr (.inr held)
  rcases mem_framed.mp held' with outside | inside
  · exact not_held_outside (nodup_heldNames linked expanded) held outside
  · rcases variable_chain inside rfl with item | ⟨k, short', is⟩
    · obtain ⟨e, there, inside⟩ := mem_tail_chain rest 0 item
      exact not_marker_of_mem_tail same expanded'
        (List.mem_append_right _ (List.mem_append_left _ there)) .holds inside
    · cases k with
      | zero =>
        have zero : restName name i = restName name 0 := is.trans start
        exact absurd (restName_inj zero) (Nat.pos_iff_ne_zero.mp positive)
      | succ k => exact fresh _ k.succ_pos short' ⟨_, written, congrArg some is⟩

include linked in
theorem unmade_of_ofSentence
    (same : ClauseCode.ofSentence (before ++ chain rest 0 items ++ after) symbols = (.ok code, t))
    (short : i < items.length) : ¬ MakesUp (before ++ after) (rest i) := by
  intro made
  have once := nodup_heldNames same (expandLists_chain linked rest)
  exact not_held_outside once (holds_mem_chain rest short) made.holds_mem

/-- A list links like the chain `name holds list w r1`, `r1 holds list w' r2` and so on,
with other names for the rests, exactly if no variable of the sentence is called like a
rest of the list and no other list makes up one of these names. -/
theorem ofSentence_chain_iff
    (linked : ClauseCode.ofSentence (before ++ (.lists name :: items) :: after) symbols =
      (.ok code, t))
    (start : rest 0 = name)
    (distinct : ∀ i j, i < items.length → j < items.length → rest i = rest j → i = j)
    (fresh : ∀ i, 0 < i → i < items.length →
      ¬ Mentions (before ++ (.lists name :: items) :: after) (rest i)) :
    ClauseCode.ofSentence (before ++ chain rest 0 items ++ after) symbols = (.ok code, t) ↔
      ∀ i, 0 < i → i < items.length →
        .var (restName name i) ∉ (before ++ (.lists name :: items) :: after).flatten ∧
          ¬ MakesUp (before ++ after) (rest i) := by
  constructor
  · intro same i positive short
    exact ⟨free_of_ofSentence linked start fresh same positive short,
      unmade_of_ofSentence linked same short⟩
  · intro apart
    exact ofSentence_chain linked start fresh distinct
      (fun i positive short => (apart i positive short).1)
      fun i positive short => (apart i positive short).2

/-- The names of a list `X` of two items and of its rest, which is called `T`. -/
def spelled : Nat → String
  | 0 => "X"
  | _ => "T"

theorem spelled_inj (i j : Nat) (short : i < 2) (short' : j < 2) (same : spelled i = spelled j) :
    i = j := by
  match i, j with
  | 0, 0 => rfl
  | 1, 1 => rfl
  | 0, 1 => exact absurd same (by decide)
  | 1, 0 => exact absurd same (by decide)

/-- The code of `p X Y if X lists a Y and Y lists b c .`, and of
`p X Y if X holds list a T and T holds list Y nil and Y lists b c .`. -/
def nestedCode : ClauseCode where
  cells := #[.header 3, .constant 0, .structRef 4, .structRef 12,
    .header 3, .constant 1, .constant 2, .structRef 8,
    .header 3, .constant 1, .structRef 12, .constant 3,
    .header 3, .constant 1, .constant 4, .structRef 16,
    .header 3, .constant 1, .constant 5, .constant 3]
  goals := [.structRef 0]
  neck := 20

theorem exists_table (s : Sentence) (symbols : Symbols) (code : ClauseCode)
    (linked : (ClauseCode.ofSentence s symbols).1 = .ok code) :
    ∃ t, ClauseCode.ofSentence s symbols = (.ok code, t) :=
  ⟨_, Prod.ext linked rfl⟩

theorem ofSentence_chain_iff_nested :
    ∃ t, ClauseCode.ofSentence
        ([[.const "p", .var "X", .var "Y"]] ++ [.lists "X", .const "a", .var "Y"] ::
          [[.lists "Y", .const "b", .const "c"]]) ⟨#[]⟩ = (.ok nestedCode, t) ∧
      ClauseCode.ofSentence
        ([[.const "p", .var "X", .var "Y"]] ++ chain spelled 0 [.const "a", .var "Y"] ++
          [[.lists "Y", .const "b", .const "c"]]) ⟨#[]⟩ = (.ok nestedCode, t) := by
  obtain ⟨t, linked⟩ := exists_table ([[.const "p", .var "X", .var "Y"]] ++
    [.lists "X", .const "a", .var "Y"] :: [[.lists "Y", .const "b", .const "c"]]) ⟨#[]⟩ nestedCode
    (by decide +kernel)
  have one {i : Nat} (positive : 0 < i) (short : i < 2) : i = 1 := by omega
  refine ⟨_, linked, (ofSentence_chain_iff linked rfl spelled_inj ?_).mpr ?_⟩
  · intro i positive short
    obtain rfl := one positive short
    unfold Mentions
    decide
  · intro i positive short
    obtain rfl := one positive short
    refine ⟨by decide, ?_⟩
    rintro ⟨name, items, k, there, positive, short, same⟩
    simp only [List.cons_append, List.nil_append, List.mem_cons, List.cons.injEq, reduceCtorEq,
      false_and, Word.lists.injEq, List.not_mem_nil, or_false, false_or] at there
    obtain ⟨rfl, rfl⟩ := there
    obtain rfl := one positive short
    exact absurd same (by decide)

/-- The code of `p X__1 if X lists a b and q X .`. -/
def capturedCode : ClauseCode where
  cells := #[.header 2, .constant 0, .structRef 7,
    .header 3, .constant 1, .constant 2, .structRef 7,
    .header 3, .constant 1, .constant 3, .constant 4,
    .header 2, .constant 5, .structRef 3]
  goals := [.structRef 0, .structRef 11]
  neck := 11

/-- In `p X__1 if X lists a b and q X .` the first argument is bound to the rest of the list,
and in the clause with `X holds list a T` and `T holds list b nil` it is free. -/
theorem not_forall_ofSentence_chain :
    ¬ ∀ (before after : Sentence) (name : String) (items : List Word) (rest : Nat → String)
        (symbols t : Symbols) (code : ClauseCode),
      ClauseCode.ofSentence (before ++ (.lists name :: items) :: after) symbols = (.ok code, t) →
      rest 0 = name →
      (∀ i j, i < items.length → j < items.length → rest i = rest j → i = j) →
      (∀ i, 0 < i → i < items.length →
        ¬ Mentions (before ++ (.lists name :: items) :: after) (rest i)) →
      ClauseCode.ofSentence (before ++ chain rest 0 items ++ after) symbols = (.ok code, t) := by
  intro hygienic
  obtain ⟨t, linked⟩ := exists_table ([[.const "p", .var "X__1"]] ++
    [.lists "X", .const "a", .const "b"] :: [[.const "q", .var "X"]]) ⟨#[]⟩ capturedCode
    (by decide +kernel)
  have same := hygienic _ _ "X" _ spelled _ _ _ linked rfl spelled_inj (by
    intro i positive short
    obtain rfl : i = 1 := Nat.le_antisymm (Nat.le_of_lt_succ short) positive
    unfold Mentions
    decide)
  have bound : (ClauseCode.ofSentence ([[.const "p", .var "X__1"]] ++
      chain spelled 0 [.const "a", .const "b"] ++ [[.const "q", .var "X"]]) ⟨#[]⟩).1 ≠
        .ok capturedCode := by decide +kernel
  exact bound (congrArg Prod.fst same)

end Sentence

end HornMachine
