import HornMachine.Proofs.AcceptedCode
import HornMachine.Proofs.Lockstep
import HornMachine.Proofs.StoredTerms
import HornMachine.Proofs.Templates
import Mathlib.Algebra.Order.BigOperators.Group.List
import Mathlib.Algebra.Order.Group.Nat

/-!
# Loading keeps what sentences say

Sentences are linked one after the other with one table of symbols. A sentence that is
refused leaves its names in the table and nothing else. The codes are stored in order,
each where the one before it ends, and every goal of a stored clause is read out as
the array of the words it was written with.
-/
namespace HornMachine

/-! ### Linking with one table -/

namespace Linking

/-- The step adds names to the table at most, whether it succeeds or not. -/
def Adds {α : Type} (x : Linking α) : Prop :=
  ∀ r : Symbols, r.Distinct → (x.run r).2.Distinct ∧ r.Grows (x.run r).2

theorem Adds.pure {α : Type} (a : α) : Adds (Pure.pure a : Linking α) :=
  fun r distinct => ⟨distinct, .refl r⟩

theorem Adds.throw {α : Type} (e : LoadError) : Adds (throw e : Linking α) :=
  fun r distinct => ⟨distinct, .refl r⟩

theorem Adds.bind {α β : Type} {x : Linking α} {f : α → Linking β} (first : Adds x)
    (later : ∀ a, Adds (f a)) : Adds (x >>= f) := by
  intro r distinct
  obtain ⟨distinct', grows⟩ := first r distinct
  rw [run_bind]
  split
  · next a t ran =>
    rw [ran] at distinct' grows
    obtain ⟨distinct'', grows'⟩ := later a t distinct'
    exact ⟨distinct'', grows.trans grows'⟩
  · next e t ran =>
    rw [ran] at distinct' grows
    exact ⟨distinct', grows⟩

theorem Adds.intern (name : String) : Adds (intern name) := by
  intro r distinct
  exact ⟨distinct.intern name, r.grows_intern name⟩

theorem Adds.foldlM {α β : Type} {f : β → α → Linking β} (step : ∀ b a, Adds (f b a))
    (as : List α) (b : β) : Adds (as.foldlM f b) := by
  induction as generalizing b with
  | nil => exact .pure b
  | cons a as ih =>
    rw [List.foldlM_cons]
    exact (step b a).bind ih

theorem Adds.placeWord (l : Layout) (w : Word) : Adds (placeWord l w) := by
  cases w with
  | const name => exact (Adds.intern name).bind fun _ => .pure _
  | number _ => exact .pure _
  | var _ => exact .pure _
  | holds _ => exact .throw _
  | lists _ => exact .throw _

theorem Adds.placeElement (first : Bool) (l : Layout) (e : Element) :
    Adds (placeElement first l e) := by
  unfold Linking.placeElement
  split
  · split
    · exact .throw _
    · exact .foldlM .placeWord _ _
  · exact .foldlM .placeWord _ _

theorem Adds.lift {α : Type} (x : Except LoadError α) : Adds (liftExcept x) := by
  cases x with
  | error e => exact .throw e
  | ok a => exact .pure a

theorem Adds.link (s : Sentence) : Adds (link s) := by
  refine (Adds.lift _).bind fun es => Adds.bind ?_ fun l => ?_
  · cases es with
    | nil => exact .pure _
    | cons head body =>
      exact (Adds.placeElement true {} head).bind fun l => .foldlM (.placeElement false) body l
  · split
    · exact .throw _
    · exact (Adds.lift _).bind fun _ => .pure _

end Linking

namespace Machine

/-- Link sentences one after the other with one table of symbols: those that link,
with their codes, and the table that holds the names of all. -/
def linkEach : Symbols → List Sentence → List (Sentence × ClauseCode) × Symbols
  | symbols, [] => ([], symbols)
  | symbols, s :: ss =>
    match ClauseCode.ofSentence s symbols with
    | (.error _, symbols) => linkEach symbols ss
    | (.ok code, symbols) =>
      let (linked, symbols) := linkEach symbols ss
      ((s, code) :: linked, symbols)

/-- What linking sentence by sentence yields. -/
theorem linkEach_spec {ss : List Sentence} {r t : Symbols} {linked : List (Sentence × ClauseCode)}
    (distinct : r.Distinct) (e : linkEach r ss = (linked, t)) :
    t.Distinct ∧ r.Grows t ∧ ∀ u : Symbols, t.Grows u →
      ∀ l ∈ linked, l.1 ∈ ss ∧ ∃ es, l.1.expandLists = .ok es ∧ Links u es l.2 := by
  induction ss generalizing r linked with
  | nil =>
    cases e
    exact ⟨distinct, .refl _, fun _ _ => nofun⟩
  | cons s ss ih =>
    unfold linkEach at e
    obtain ⟨distinct', grows⟩ := Linking.Adds.link s r distinct
    split at e
    · next err m refused =>
      have table : ((Linking.link s).run r).2 = m := congrArg Prod.snd refused
      rw [table] at distinct' grows
      obtain ⟨distinct'', grows', links⟩ := ih distinct' e
      refine ⟨distinct'', grows.trans grows', fun u grows'' l member => ?_⟩
      obtain ⟨there, rest⟩ := links u grows'' l member
      exact ⟨List.mem_cons_of_mem _ there, rest⟩
    · next code m ran =>
      have table : ((Linking.link s).run r).2 = m := congrArg Prod.snd ran
      rw [table] at distinct' grows
      obtain ⟨es, expanded, -, here⟩ := Linking.link_links ran
      cases rest : linkEach m ss with
      | mk linked' t' =>
        rw [rest] at e
        cases e
        obtain ⟨distinct'', grows', links⟩ := ih distinct' rest
        refine ⟨distinct'', grows.trans grows', fun u grows'' l member => ?_⟩
        rcases List.mem_cons.mp member with rfl | later
        · exact ⟨List.mem_cons_self .., es, expanded, here u (grows'.trans grows'')⟩
        · obtain ⟨there, rest⟩ := links u grows'' l later
          exact ⟨List.mem_cons_of_mem _ there, rest⟩

end Machine

/-! ### Storing -/

/-- Code that is closed in itself and passes the checks. -/
structure ClauseCode.Storable (code : ClauseCode) (count : Nat) : Prop where
  valid : code.validate = .ok ()
  linked : code.bare.Linked count
  tag : code.head.tag = .structRef
  block : ∃ n, code.HasBlock code.head.addr n

namespace ClauseCode.Storable

variable {code : ClauseCode} {count : Nat} {h k : Heap}

theorem closed (storable : code.Storable count) (copied : code.Copied code.size h k)
    (closed : h.Closed 0 count) : k.Closed 0 count := by
  have bare : code.bare.Copied code.bare.size h k := copied
  exact bare.closed storable.linked storable.linked.cut_size (Nat.zero_le _) closed

theorem head (storable : code.Storable count) (copied : code.Copied code.size h k) :
    k.IsTerm 0 count (code.head.relocate h.top) := by
  have bare : code.bare.Copied code.bare.size h k := copied
  obtain ⟨n, block⟩ := storable.block
  have inside := block.lt_size
  exact (bare.refTerm storable.linked.cut_size (Nat.zero_le _) storable.tag block
    (show code.head.addr < code.size by omega)).1

end ClauseCode.Storable

theorem Links.storable {t : Symbols} {es : List Element} {code : ClauseCode}
    (links : Links t es code) (small : code.size < 2 ^ 60) : code.Storable t.count := by
  obtain ⟨valid, rfl, plain, ⟨head, body, rfl, goal⟩, -⟩ := links
  have size : (layoutOf t (head :: body)).slots.size < 2 ^ 60 := Layout.size_code _ ▸ small
  have first : (layoutOf t (head :: body)).code.head = .structRef 0 := by
    rw [ClauseCode.head, Layout.goals_code body goal, List.headD_cons]
  refine ⟨valid, Layout.bare_linked size plain, ?_, (contentOf head).length, ?_⟩
  · rw [first, Cell.tag_structRef]
  · rw [first, Cell.addr_structRef (by decide)]
    exact Layout.hasBlock (.head head body) plain

namespace Program

variable {positions count : Nat} {h k : Heap} {cs ds : Array Clause} {code : ClauseCode}
  {codes : List ClauseCode}

theorem exists_storeCode (positions : Nat) (cs : Array Clause)
    (storable : code.Storable count) (closed : h.Closed 0 count)
    (room : h.top + code.size < 2 ^ 60) :
    ∃ r, storeCode positions (h, cs) code =
      (.ok (.ok r) : Except Halt (Except LoadError (Heap × Array Clause))) := by
  have valid := storable.valid
  have tag := storable.tag
  let cells := h.toList ++ code.cells.toList.map (·.relocate h.top)
  have size : cells.toArray.size < 2 ^ 60 := by
    simp only [cells, List.size_toArray, List.length_append, Heap.length_toList, List.length_map,
      Array.length_toList]
    exact room
  let k : Heap := ⟨cells.toArray, size⟩
  have copied : code.Copied code.size h k := ClauseCode.copied_size.mpr rfl
  have closed' := storable.closed copied closed
  have term := storable.head copied
  obtain ⟨keys, made⟩ := Keys.exists_ofRef closed' term ((Cell.tag_relocate _ _).trans tag)
    positions
  obtain ⟨first, body, goals, -⟩ := (ClauseCode.validate_eq_ok.mp valid).head
  have same : code.head = first := by rw [ClauseCode.head, goals, List.headD_cons]
  rw [same] at made
  have stored : ∃ c, Clause.store h code first body positions = .ok (c, k) :=
    ⟨_, Clause.store_eq_ok.mpr ⟨copied, keys, made, rfl⟩⟩
  obtain ⟨c, stored⟩ := stored
  refine ⟨(k, cs.push c), Loading.bind_eq_ok.mpr ⟨(), by rw [valid]; rfl, ?_⟩⟩
  rw [goals]
  exact Loading.bind_eq_ok.mpr ⟨_, Loading.lift_eq_ok.mpr stored, rfl⟩

/-- Codes that are stored lie one behind the other, with their clauses in order. -/
theorem storeCodes_inv
    (e : codes.foldlM (storeCode positions) (h, cs) =
      (.ok (.ok (k, ds)) : Except Halt (Except LoadError (Heap × Array Clause)))) :
    k.toList = h.toList ++ imageFrom h.top codes ∧ ∃ new, ds.toList = cs.toList ++ new ∧
      List.Forall₂ Clause.Alike (clausesFrom positions h.top codes) new := by
  induction codes generalizing h cs with
  | nil =>
    cases e
    exact ⟨by simp [imageFrom], [], by simp, .nil⟩
  | cons code codes ih =>
    rw [List.foldlM_cons] at e
    obtain ⟨⟨m, _⟩, first, rest⟩ := Loading.bind_eq_ok.mp e
    obtain ⟨copied, keys, -, rfl⟩ := storeCode_inv first
    obtain ⟨image, new, list, later⟩ := ih rest
    have whole := ClauseCode.copied_size.mp copied
    refine ⟨by rw [image, whole, copied.top, imageFrom, List.append_assoc],
      { code.clauseAt positions h.top with keys } :: new, ?_, ?_⟩
    · rw [list, Array.toList_push, List.append_assoc]
      rfl
    · rw [clausesFrom, ← copied.top]
      exact .cons ⟨keys, rfl⟩ later

theorem exists_storeCodes (positions : Nat) (cs : Array Clause)
    (storable : ∀ code ∈ codes, code.Storable count)
    (closed : h.Closed 0 count) (room : h.top + (codes.map (·.size)).sum < 2 ^ 60) :
    ∃ r, codes.foldlM (storeCode positions) (h, cs) =
      (.ok (.ok r) : Except Halt (Except LoadError (Heap × Array Clause))) := by
  induction codes generalizing h cs with
  | nil => exact ⟨_, rfl⟩
  | cons code codes ih =>
    obtain ⟨here, others⟩ := List.forall_mem_cons.mp storable
    rw [List.map_cons, List.sum_cons] at room
    obtain ⟨⟨m, ds⟩, first⟩ := exists_storeCode positions cs here closed (by omega)
    obtain ⟨copied, -⟩ := storeCode_inv first
    have top := copied.top
    obtain ⟨r, rest⟩ := ih ds others (here.closed copied closed) (by omega)
    rw [List.foldlM_cons]
    exact ⟨r, Loading.bind_eq_ok.mpr ⟨_, first, rest⟩⟩

end Program

namespace Machine

variable {settings : Settings} {codes : List ClauseCode} {t : Symbols} {m : Machine}

/-- Right after loading the heap holds the codes one behind the other. -/
theorem ofCode_inv
    (e : ofCode settings t codes = (.ok (.ok m) : Except Halt (Except LoadError Machine))) :
    m.store.heap.toList = imageFrom 0 codes ∧ m.program.symbols = t ∧
      List.Forall₂ Clause.Alike (clausesFrom settings.positions 0 codes)
        m.program.clauses.toList := by
  unfold ofCode at e
  split at e
  · cases e
  obtain ⟨⟨heap, clauses⟩, stored, e⟩ := Loading.bind_eq_ok.mp e
  obtain ⟨image, new, list, alike⟩ := Program.storeCodes_inv stored
  obtain rfl : clauses.toList = new := list
  dsimp only at e
  split at e
  · cases e
  · obtain ⟨_, -, e⟩ := Loading.bind_eq_ok.mp e
    rw [Loading.lift_eq_ok] at e
    obtain ⟨store, restored, e⟩ := Halt.bind_eq_ok.mp e
    cases e
    have same := (Store.Extends.refl ⟨heap, {}⟩).restore
    rw [show (⟨heap, {}⟩ : Store).trail.mark = 0 from rfl, restored, Except.ok.injEq] at same
    subst same
    exact ⟨image, rfl, alike⟩

theorem exists_ofCode {count : Nat} (storable : ∀ code ∈ codes, code.Storable count)
    (any : codes ≠ []) (names : t.count ≤ Symbols.limit)
    (room : (codes.map (·.size)).sum < 2 ^ 60) :
    ∃ m, ofCode settings t codes = (.ok (.ok m) : Except Halt (Except LoadError Machine)) := by
  have none : Heap.empty.Closed 0 count := by
    intro a c _ found
    exact absurd (Heap.lt_top_of_get? found) (Nat.not_lt_zero a)
  obtain ⟨⟨heap, clauses⟩, stored⟩ := Program.exists_storeCodes settings.positions #[]
    storable none (by rw [show Heap.empty.top = 0 from rfl]; omega)
  obtain ⟨-, new, list, alike⟩ := Program.storeCodes_inv stored
  obtain rfl : clauses.toList = new := list
  have size : clauses.size ≠ 0 := by
    rw [← Array.length_toList, ← alike.length_eq, length_clausesFrom]
    exact fun none => any (List.length_eq_zero_iff.mp none)
  obtain ⟨query, last⟩ : ∃ query, clauses.back? = some query := by
    rw [Array.back?, Array.getElem?_eq_getElem (by omega)]
    exact ⟨_, rfl⟩
  have restarts (p : Program) (top : p.staticTop = heap.top) (head : Cell) :
      ∃ m, (⟨p, ⟨heap, {}⟩, [], head⟩ : Machine).restart = .ok m := by
    have same := (Store.Extends.refl ⟨heap, {}⟩).restore
    rw [← top] at same
    exact ⟨_, Halt.bind_eq_ok.mpr ⟨_, same, rfl⟩⟩
  unfold ofCode
  rw [if_neg (by simpa using any)]
  refine Exists.imp (fun m e => Loading.bind_eq_ok.mpr ⟨(heap, clauses), stored, e⟩) ?_
  dsimp only
  rw [last]
  simp only [Loading.bind_eq_ok, Loading.lift_eq_ok, Symbols.checkCount_eq_ok]
  exact (restarts _ rfl _).imp fun _ e => ⟨(), names, e⟩

/-- Where the `i`-th code is stored: behind those before it. -/
def startOf (linked : List (Sentence × ClauseCode)) (i : Nat) : Nat :=
  ((linked.take i).map (·.2.size)).sum

theorem sum_take (linked : List (Sentence × ClauseCode)) (i : Nat) :
    (((linked.map (·.2)).take i).map (·.size)).sum = startOf linked i := by
  rw [← List.map_take, List.map_map]
  rfl

/-- The goals of a clause are read out, in order, as the arrays of the words of its
elements that are no equations, if the equations below them nest as deep as is read. -/
def Shows (m : Machine) (c : Clause) (es : List Element) : Prop :=
  List.Forall₂ (fun g e => Nests es maxDepth e →
      ∃ x, arrayWithin es c.base (maxDepth + 1) e = some x ∧ m.heap.readout m.symbols g = .ok x)
    c.goals (es.filter fun e => !isEquation e)

/-- The clause `c`, numbered `i`, was made of a sentence whose expanded elements are
`es`. -/
structure MadeFrom (m : Machine) (linked : List (Sentence × ClauseCode)) (i : Nat) (c : Clause)
    (es : List Element) : Prop where
  clause : m.program.clauses[i]? = some c
  sentence : ∃ l, linked[i]? = some l ∧ l.1.expandLists = .ok es

/-- The clauses of a machine say what the sentences say that they were linked from. -/
structure Faithful (m : Machine) (linked : List (Sentence × ClauseCode)) : Prop where
  size : m.program.clauses.size = linked.length
  all : ∀ i, i < linked.length → ∃ c es, m.MadeFrom linked i c es
  base : ∀ i c es, m.MadeFrom linked i c es → c.base = startOf linked i
  goals : ∀ i c es, m.MadeFrom linked i c es → m.Shows c es
  /-- Variables have one label exactly when they have one name in one clause. -/
  label : ∀ i j c c' es es' name name' x x', m.MadeFrom linked i c es →
    m.MadeFrom linked j c' es' → variableLabel? es c.base name = some x →
    variableLabel? es' c'.base name' = some x' → (x = x' ↔ i = j ∧ name = name')

end Machine

/-! ### Faithful machines -/

/-- The goals of a layout are where the blocks of its elements that are no equations
start. -/
theorem goalsFrom_forall₂ (a : Nat) (es : List Element) :
    List.Forall₂ (fun o e => ∃ o', o = a + o' ∧ BlockAt es o' e ∧ isEquation e = false)
      (goalsFrom a es) (es.filter fun e => !isEquation e) := by
  induction es generalizing a with
  | nil => exact .nil
  | cons e es ih =>
    have later := (ih (a + blockSize e)).imp fun o e' ⟨o', same, block, goal⟩ =>
      (⟨blockSize e + o', by omega, block.cons e, goal⟩ :
        ∃ o', o = a + o' ∧ BlockAt (e :: es) o' e' ∧ isEquation e' = false)
    rw [goalsFrom]
    cases goal : isEquation e with
    | true =>
      rw [if_pos rfl, List.filter_cons_of_neg (by simp [goal])]
      exact later
    | false =>
      rw [if_neg (by simp), List.filter_cons_of_pos (by simp [goal])]
      exact .cons ⟨0, rfl, .head e es, goal⟩ later

theorem Links.size {t : Symbols} {es : List Element} {code : ClauseCode}
    (links : Links t es code) : code.size = (layoutOf t es).slots.size := by
  rw [links.code, Layout.size_code]

/-- The goals of a clause stored for linked code refer to the blocks of its elements. -/
theorem Links.shows {t : Symbols} {es : List Element} {code : ClauseCode} {m : Machine}
    {positions base : Nat} {c : Clause} (links : Links t es code)
    (stores : m.heap.Stores t es base) (symbols : m.symbols = t)
    (alike : (code.clauseAt positions base).Alike c) : m.Shows c es := by
  obtain ⟨keys, rfl⟩ := alike
  have all : Clause.goals { code.clauseAt positions base with keys } =
      (goalsFrom 0 es).map fun o => (Cell.structRef o).relocate base := by
    obtain ⟨head, body, rfl, goal⟩ := links.head
    have list := Layout.goals_code (t := t) body goal
    rw [← links.code] at list
    have here : goalsFrom 0 (head :: body) = 0 :: goalsFrom (blockSize head) body := by
      rw [goalsFrom, goal, if_neg Bool.false_ne_true, Nat.zero_add]
    simp [Clause.goals, ClauseCode.clauseAt, ClauseCode.head, ClauseCode.body, list, here]
  rw [Machine.Shows, all, List.forall₂_map_left_iff]
  refine (goalsFrom_forall₂ 0 es).imp ?_
  rintro o e ⟨o', rfl, block, goal⟩ nests
  have inside := stores.end_lt block
  have limit := m.heap.top_lt
  rw [← contentOf_of_not_equation goal] at nests ⊢
  obtain ⟨x, shown⟩ := block.exists_array base links.plain nests
  refine ⟨x, shown, ?_⟩
  rw [Nat.zero_add, Cell.relocate_structRef (by omega), Nat.add_comm, symbols]
  exact stores.readout block shown

namespace Machine

variable {settings : Settings} {t : Symbols} {m : Machine} {ss : List Sentence}
  {linked : List (Sentence × ClauseCode)} {l l' : Sentence × ClauseCode} {positions i j : Nat}
  {c c' : Clause} {es es' : List Element} {name name' : String} {x x' : Term}

/-- A code ends where a later one starts, or before. -/
theorem startOf_add_size_le {i j : Nat} {l : Sentence × ClauseCode}
    (source : linked[i]? = some l) (lt : i < j) :
    startOf linked i + l.2.size ≤ startOf linked j := by
  have rule : ((linked.map (·.2)).take j)[i]? = some l.2 := by
    rw [List.getElem?_take_of_lt lt, List.getElem?_map, source]
    rfl
  have below := Codes.base_add_size_le (w := ⟨(linked.map (·.2)).take j, l.2, 0⟩) rule
  rwa [Codes.base, List.take_take, Nat.min_eq_left lt.le, sum_take, Codes.floor, sum_take] at below

/-- A clause of a loaded machine, with the sentence and the code it was made of. -/
structure Placed (m : Machine) (t : Symbols) (positions : Nat)
    (linked : List (Sentence × ClauseCode)) (i : Nat) (c : Clause) (es : List Element)
    (l : Sentence × ClauseCode) : Prop where
  source : linked[i]? = some l
  expanded : l.1.expandLists = .ok es
  links : Links t es l.2
  alike : (l.2.clauseAt positions (startOf linked i)).Alike c
  stores : m.heap.Stores t es (startOf linked i)

theorem MadeFrom.placed (sound : t.Sound)
    (numbers : ∀ l ∈ linked, ∀ e ∈ l.1, ∀ n, Word.number n ∈ e → -2 ^ 60 ≤ n ∧ n < 2 ^ 60)
    (links : ∀ l ∈ linked, ∃ es, l.1.expandLists = .ok es ∧ Links t es l.2)
    (image : m.heap.toList = imageFrom 0 (linked.map (·.2)))
    (alike : List.Forall₂ Clause.Alike (clausesFrom settings.positions 0 (linked.map (·.2)))
      m.program.clauses.toList)
    (made : m.MadeFrom linked i c es) : ∃ l, m.Placed t settings.positions linked i c es l := by
  obtain ⟨found, l, source, expanded⟩ := made
  have member := List.mem_of_getElem? source
  obtain ⟨es', expanded', link⟩ := links l member
  obtain rfl : es = es' := Except.ok.inj (expanded.symm.trans expanded')
  have code : (linked.map (·.2))[i]? = some l.2 := by rw [List.getElem?_map, source]; rfl
  refine ⟨l, source, expanded, link, ?_, ?_⟩
  · rw [← Array.getElem?_toList] at found
    obtain ⟨inside, here⟩ := List.getElem?_eq_some_iff.mp found
    have stored := List.getElem?_eq_getElem (alike.length_eq ▸ inside :
      i < (clausesFrom settings.positions 0 (linked.map (·.2))).length)
    have related := List.forall₂_iff_get.mp alike |>.2 i (alike.length_eq ▸ inside) inside
    simp only [List.get_eq_getElem, here] at related
    rw [getElem?_clausesFrom, code, Option.map_some, Option.some.injEq, Nat.zero_add, sum_take]
      at stored
    rwa [← stored] at related
  · refine ⟨fun a c cell => ?_, sound, link.plain, fun n inside => ?_, link.unambiguous⟩
    · have here : l.2.cells[a]? = some c := by rwa [link.code]
      have span := span_image image code
      rw [sum_take] at span
      rw [← Heap.getElem?_span (ClauseCode.lt_size_of_getElem? here), span, List.getElem?_map,
        Array.getElem?_toList, here, Option.map_some]
    · obtain ⟨e, there, number⟩ := Sentence.number_of_expandLists expanded inside
      exact numbers l member e there n number

namespace Placed

theorem base (placed : m.Placed t positions linked i c es l) : c.base = startOf linked i := by
  obtain ⟨keys, rfl⟩ := placed.alike
  rfl

theorem word_lt {a : Nat} {w : Option Word} (placed : m.Placed t positions linked i c es l)
    (found : (cellWords es)[a]? = some w) : a < l.2.size := by
  rw [placed.links.size, ← length_cellWords]
  exact (List.getElem?_eq_some_iff.mp found).choose

/-- The label of a variable is the address of a cell of its clause. -/
theorem label (placed : m.Placed t positions linked i c es l)
    (placed' : m.Placed t positions linked j c' es' l')
    (shown : variableLabel? es c.base name = some x)
    (shown' : variableLabel? es' c'.base name' = some x') : x = x' ↔ i = j ∧ name = name' := by
  rw [placed.base] at shown
  rw [placed'.base] at shown'
  obtain ⟨a, a', found, found', same⟩ := variableLabel?_inj shown shown'
  have short := placed.word_lt found
  have short' := placed'.word_lt found'
  rw [same]
  constructor
  · intro addrs
    rcases Nat.lt_trichotomy i j with lt | rfl | gt
    · have apart := startOf_add_size_le placed.source lt
      omega
    · obtain rfl : a = a' := Nat.add_left_cancel addrs
      obtain rfl : l = l' := Option.some.inj (placed.source.symm.trans placed'.source)
      obtain rfl : es = es' := Except.ok.inj (placed.expanded.symm.trans placed'.expanded)
      have words := found.symm.trans found'
      simp only [Option.some.injEq, Word.var.injEq] at words
      exact ⟨rfl, words⟩
    · have apart := startOf_add_size_le placed'.source gt
      omega
  · rintro ⟨rfl, rfl⟩
    obtain rfl : l = l' := Option.some.inj (placed.source.symm.trans placed'.source)
    obtain rfl : es = es' := Except.ok.inj (placed.expanded.symm.trans placed'.expanded)
    exact same.mp (Option.some.inj (shown.symm.trans shown'))

end Placed

/-- A loaded machine is faithful to the sentences it was linked from. -/
theorem faithful_of_ofCode (sound : t.Sound)
    (numbers : ∀ l ∈ linked, ∀ e ∈ l.1, ∀ n, Word.number n ∈ e → -2 ^ 60 ≤ n ∧ n < 2 ^ 60)
    (links : ∀ l ∈ linked, ∃ es, l.1.expandLists = .ok es ∧ Links t es l.2)
    (e : ofCode settings t (linked.map (·.2)) =
      (.ok (.ok m) : Except Halt (Except LoadError Machine))) : m.Faithful linked := by
  obtain ⟨image, symbols, alike⟩ := ofCode_inv e
  have size : m.program.clauses.size = linked.length := by
    rw [← Array.length_toList, ← alike.length_eq, length_clausesFrom, List.length_map]
  have placed {i : Nat} {c : Clause} {es : List Element} (made : m.MadeFrom linked i c es) :
      ∃ l, m.Placed t settings.positions linked i c es l :=
    made.placed sound numbers links image alike
  refine ⟨size, fun i inside => ?_, fun i c es made => ?_, fun i c es made => ?_, ?_⟩
  · obtain ⟨es, expanded, -⟩ := links _ (List.getElem_mem inside)
    exact ⟨_, es, Array.getElem?_eq_getElem (size ▸ inside), _, List.getElem?_eq_getElem inside,
      expanded⟩
  · obtain ⟨l, placed⟩ := placed made
    exact placed.base
  · obtain ⟨l, placed⟩ := placed made
    exact placed.links.shows placed.stores symbols placed.alike
  · intro i j c c' es es' name name' x x' made made' shown shown'
    obtain ⟨l, placed₁⟩ := placed made
    obtain ⟨l', placed₂⟩ := placed made'
    exact placed₁.label placed₂ shown shown'

/-- Sentences that are linked with one table and stored in order keep what they say,
whatever other sentences are refused in between. -/
theorem faithful_of_linkEach {settings : Settings} {ss : List Sentence} {t : Symbols}
    {linked : List (Sentence × ClauseCode)} (e : linkEach {} ss = (linked, t))
    (names : t.count < 2 ^ 32)
    (numbers : ∀ s ∈ ss, ∀ e ∈ s, ∀ n, Word.number n ∈ e → -2 ^ 60 ≤ n ∧ n < 2 ^ 60) :
    (linked ≠ [] → (linked.map (·.2.size)).sum < 2 ^ 60 →
      ∃ m, ofCode settings t (linked.map (·.2)) =
        (.ok (.ok m) : Except Halt (Except LoadError Machine))) ∧
    ∀ m, ofCode settings t (linked.map (·.2)) =
      (.ok (.ok m) : Except Halt (Except LoadError Machine)) → m.Faithful linked := by
  obtain ⟨distinct, -, links⟩ := linkEach_spec Symbols.distinct_empty e
  have origin := links t (.refl t)
  have sound : t.Sound := ⟨distinct, by rw [Symbols.limit]; omega⟩
  constructor
  · intro any room
    have storable : ∀ code ∈ linked.map (·.2), code.Storable t.count := by
      intro code member
      obtain ⟨l, there, rfl⟩ := List.mem_map.mp member
      obtain ⟨-, es, -, link⟩ := origin l there
      have le : l.2.size ≤ (linked.map (·.2.size)).sum :=
        List.le_sum_of_mem (List.mem_map.mpr ⟨l, there, rfl⟩)
      exact link.storable (by omega)
    exact exists_ofCode storable (by simpa using any) sound.room (by rwa [List.map_map])
  · intro m loaded
    refine faithful_of_ofCode sound (fun l there => ?_) (fun l there => (origin l there).2) loaded
    exact numbers l.1 (origin l there).1

/-- A fact, a sentence that is refused, and a query with an equation. -/
theorem faithful_facts :
    ∃ linked t, linkEach {} [[[.const "p", .var "X"]], [[.const "bad", .holds "X"]],
        [[.const "q", .var "X", .number (-3), .var "Y"], [.holds "X", .const "f", .var "Y"]]] =
          (linked, t) ∧ linked.length = 2 ∧ ∃ m, ofCode {} t (linked.map (·.2)) =
            (.ok (.ok m) : Except Halt (Except LoadError Machine)) ∧ m.Faithful linked := by
  have numbers : ∀ s ∈ [[[Word.const "p", .var "X"]], [[.const "bad", .holds "X"]],
      [[.const "q", .var "X", .number (-3), .var "Y"], [.holds "X", .const "f", .var "Y"]]],
      ∀ e ∈ s, ∀ n, Word.number n ∈ e → -2 ^ 60 ≤ n ∧ n < 2 ^ 60 := by simp
  refine ⟨_, _, Prod.mk.eta.symm, by decide +kernel, ?_⟩
  obtain ⟨loads, faithful⟩ :=
    @faithful_of_linkEach {} _ _ _ Prod.mk.eta.symm (by decide +kernel) numbers
  obtain ⟨m, loaded⟩ := loads (by decide +kernel) (by decide +kernel)
  exact ⟨m, loaded, faithful m loaded⟩

end Machine

end HornMachine
