import HornMachine.Proofs.Asking
import HornMachine.Proofs.Candidates
import HornMachine.Proofs.KeyFilter
import HornMachine.Proofs.ReadSentences

/-!
# Loaded machines

A loaded machine is determined by the linked codes of its clauses and by the
settings: the heap is the codes one behind the other, each relocated to where it
starts, and a clause records where its code lies and the keys of its head. The
settings only enter through the keys and the index.
-/
namespace HornMachine

namespace ClauseCode

/-- The reference to the head. -/
def head (code : ClauseCode) : Cell := code.goals.headD (.header 0)

/-- The references to the body goals. -/
def body (code : ClauseCode) : List Cell := code.goals.tail

/-- The clause of code stored at `base`. -/
def clauseAt (code : ClauseCode) (positions base : Nat) : Clause where
  len := code.size
  base := base
  neck := code.neck
  headLen := code.headLen
  head := code.head.relocate base
  body := code.body.map (·.relocate base)
  keys := code.keys code.head positions

end ClauseCode

/-- The cells of codes stored one behind the other from `base` on. -/
def imageFrom (base : Nat) : List ClauseCode → List Cell
  | [] => []
  | code :: codes =>
    code.cells.toList.map (·.relocate base) ++ imageFrom (base + code.size) codes

/-- The clauses of codes stored one behind the other from `base` on. -/
def clausesFrom (positions base : Nat) : List ClauseCode → List Clause
  | [] => []
  | code :: codes =>
    code.clauseAt positions base :: clausesFrom positions (base + code.size) codes

theorem length_imageFrom (base : Nat) (codes : List ClauseCode) :
    (imageFrom base codes).length = (codes.map (·.size)).sum := by
  induction codes generalizing base with
  | nil => rfl
  | cons code codes ih => simp [imageFrom, ih, ClauseCode.size]

theorem length_clausesFrom (positions base : Nat) (codes : List ClauseCode) :
    (clausesFrom positions base codes).length = codes.length := by
  induction codes generalizing base with
  | nil => rfl
  | cons code codes ih => simp [clausesFrom, ih]

/-- Code that a clause can be made of. -/
structure ClauseCode.Usable (code : ClauseCode) (count : Nat) : Prop where
  linked : code.Linked count
  some : code.goals ≠ []
  cut : code.Cut code.headLen
  headLen_le : code.headLen ≤ code.size
  /-- The head lies in the part that is copied before it is unified. -/
  head_lt : code.head.addr < code.headLen

theorem Renders.usable {t : Symbols} {es : List Element} {code : ClauseCode}
    (renders : Renders t es code) (small : code.size < 2 ^ 60) :
    code.Usable t.count := by
  obtain ⟨rfl, plain, nonempty, -, ⟨head, body, rfl, goal⟩, -⟩ := renders
  have size : (layoutOf t (head :: body)).slots.size < 2 ^ 60 := Layout.size_code _ ▸ small
  have linked := Layout.linked size plain nonempty
  have goals := Layout.goals_code (t := t) body goal
  obtain ⟨positive, le⟩ := Layout.headLen_le (t := t) body goal
  refine ⟨linked, by simp [goals], Layout.cut_headLen goal size plain linked, le, ?_⟩
  rw [ClauseCode.head, goals, List.headD_cons, Cell.addr_structRef (by decide)]
  exact positive

theorem ClauseCode.Usable.goals_eq {code : ClauseCode} {count : Nat} (usable : code.Usable count) :
    code.goals = code.head :: code.body := by
  unfold ClauseCode.head ClauseCode.body
  cases goals : code.goals with
  | nil => exact absurd goals usable.some
  | cons head body => rfl

theorem ClauseCode.Usable.mem_goals {code : ClauseCode} {count : Nat} {g : Cell}
    (usable : code.Usable count) (member : g ∈ code.body) : g ∈ code.goals := by
  rw [usable.goals_eq]
  exact List.mem_cons_of_mem _ member

/-- The head of usable code is a structure with an element. -/
theorem ClauseCode.Usable.head_block {code : ClauseCode} {count : Nat}
    (usable : code.Usable count) :
    code.head.tag = .structRef ∧ ∃ n, code.HasBlock code.head.addr (n + 1) := by
  apply usable.linked.goal
  rw [usable.goals_eq]
  exact List.mem_cons_self ..

namespace Loading

theorem bind_eq_ok {α β : Type} {x : Loading α} {f : α → Loading β} {b : β} :
    (x >>= f) = (.ok (.ok b) : Except Halt (Except LoadError β)) ↔
      ∃ a, x = (.ok (.ok a) : Except Halt (Except LoadError α)) ∧
        f a = (.ok (.ok b) : Except Halt (Except LoadError β)) := by
  have split : (x >>= f) = (match (x : Except Halt (Except LoadError α)) with
      | .ok (.ok a) => f a
      | .ok (.error e) => (.ok (.error e) : Except Halt (Except LoadError β))
      | .error halt => .error halt) := by
    change ExceptT.run x >>= ExceptT.bindCont f = _
    unfold ExceptT.run
    rcases (x : Except Halt (Except LoadError α)) with halt | e | a <;> rfl
  rw [split]
  rcases (x : Except Halt (Except LoadError α)) with halt | e | a
  · constructor
    · intro e
      cases e
    · rintro ⟨a, e, -⟩
      cases e
  · constructor
    · intro e
      cases e
    · rintro ⟨a, e, -⟩
      cases e
  · constructor
    · intro e
      exact ⟨a, rfl, e⟩
    · rintro ⟨a', e, later⟩
      cases e
      exact later

theorem lift_eq_ok {α : Type} {x : Except Halt α} {a : α} :
    (liftM x : Loading α) = (.ok (.ok a) : Except Halt (Except LoadError α)) ↔ x = .ok a := by
  change (Except.ok <$> x) = _ ↔ _
  cases x with
  | error e =>
    constructor
    · intro e
      cases e
    · intro e
      cases e
  | ok b =>
    constructor
    · intro e
      cases e
      rfl
    · intro e
      cases e
      rfl

end Loading

namespace Program

variable {positions count : Nat} {h h' : Heap} {cs cs' : Array Clause} {code : ClauseCode}

theorem storeCode_inv
    (e : storeCode positions (h, cs) code =
      (.ok (.ok (h', cs')) : Except Halt (Except LoadError (Heap × Array Clause)))) :
    code.Copied code.size h h' ∧
      ∃ keys, Keys.ofRef h' (code.head.relocate h.top) positions = .ok keys ∧
        cs' = cs.push { code.clauseAt positions h.top with keys } := by
  obtain ⟨_, -, e⟩ := Loading.bind_eq_ok.mp e
  split at e
  · cases e
  · next head body goals =>
    obtain ⟨⟨clause, k⟩, stored, e⟩ := Loading.bind_eq_ok.mp e
    cases e
    rw [Loading.lift_eq_ok, Clause.store_eq_ok] at stored
    obtain ⟨copied, keys, made, rfl⟩ := stored
    have same : code.head = head ∧ code.body = body := by
      unfold ClauseCode.head ClauseCode.body
      rw [goals]
      exact ⟨rfl, rfl⟩
    obtain ⟨rfl, rfl⟩ := same
    exact ⟨copied, keys, made, rfl⟩

theorem storeCode_eq_ok (usable : code.size < 2 ^ 60 → code.Usable count)
    (closed : h.Closed 0 count)
    (e : storeCode positions (h, cs) code =
      (.ok (.ok (h', cs')) : Except Halt (Except LoadError (Heap × Array Clause)))) :
    code.Usable count ∧ code.Copied code.size h h' ∧
      cs' = cs.push (code.clauseAt positions h.top) := by
  obtain ⟨copied, keys, made, rfl⟩ := storeCode_inv e
  have usable := usable copied.size_lt
  obtain ⟨tag, n, block⟩ := usable.head_block
  have exact := copied.keys usable.linked usable.linked.cut_size (Nat.zero_le _) closed tag block
    (by have := block.lt_size; omega) positions
  rw [made, Except.ok.injEq] at exact
  subst exact
  exact ⟨usable, copied, rfl⟩

/-- Storing codes one after the other gives their image and their clauses. -/
theorem storeCodes_eq_ok {codes : List ClauseCode}
    (usable : ∀ code ∈ codes, code.size < 2 ^ 60 → code.Usable count) (closed : h.Closed 0 count)
    (rooted : h.Rooted)
    (e : codes.foldlM (storeCode positions) (h, cs) =
      (.ok (.ok (h', cs')) : Except Halt (Except LoadError (Heap × Array Clause)))) :
    (∀ code ∈ codes, code.Usable count) ∧ h'.Rooted ∧
      h'.toList = h.toList ++ imageFrom h.top codes ∧
      cs'.toList = cs.toList ++ clausesFrom positions h.top codes := by
  induction codes generalizing h cs with
  | nil =>
    cases e
    exact ⟨nofun, rooted, by simp [imageFrom], by simp [clausesFrom]⟩
  | cons code codes ih =>
    rw [List.foldlM_cons] at e
    obtain ⟨⟨m, ds⟩, first, rest⟩ := Loading.bind_eq_ok.mp e
    obtain ⟨good, copied, rfl⟩ :=
      storeCode_eq_ok (usable code (List.mem_cons_self ..)) closed first
    obtain ⟨later, rooted', image, clauses⟩ :=
      ih (fun c member => usable c (List.mem_cons_of_mem _ member))
        (copied.closed good.linked good.linked.cut_size (Nat.zero_le _) closed)
        (copied.rooted good.linked good.linked.cut_size rooted) rest
    have list := ClauseCode.copied_size.mp copied
    refine ⟨?_, rooted', ?_, ?_⟩
    · intro c member
      rcases List.mem_cons.mp member with rfl | tail
      · exact good
      · exact later c tail
    · rw [image, list, copied.top, imageFrom, List.append_assoc]
    · rw [clauses, copied.top, clausesFrom, Array.toList_push, List.append_assoc]
      rfl

end Program

/-- A machine freshly loaded from codes whose constants are numbered in `t`. -/
structure Machine.LoadedFrom (m : Machine) (settings : Settings) (codes : List ClauseCode)
    (t : Symbols) : Prop where
  configured : m.program.settings = settings
  symbols : m.program.symbols = t
  image : m.store.heap.toList = imageFrom 0 codes
  trail : m.store.trail = {}
  clauses : m.program.clauses.toList = clausesFrom settings.positions 0 codes
  query : m.program.clauses.back? = some m.program.query
  static : m.program.staticTop = m.store.heap.top
  indexed : m.program.Indexed
  stack : m.stack = [.fresh m.program.query.head m.program.staticTop m.program.query.body 0
    m.program.clauses.size]
  queryHead : m.queryHead = m.program.query.head
  usable : ∀ code ∈ codes, code.Usable t.count
  rooted : m.store.heap.Rooted
  sound : t.Sound

theorem exists_left {α β : Type} {R : α → β → Prop} {as : List α} {bs : List β} {b : β}
    (pairs : List.Forall₂ R as bs) (member : b ∈ bs) : ∃ a ∈ as, R a b := by
  induction pairs with
  | nil => cases member
  | cons first _ ih =>
    rcases List.mem_cons.mp member with rfl | later
    · exact ⟨_, List.mem_cons_self .., first⟩
    · obtain ⟨a, there, related⟩ := ih later
      exact ⟨a, List.mem_cons_of_mem _ there, related⟩

namespace Machine

variable {settings : Settings} {codes : List ClauseCode} {t : Symbols} {m : Machine}

theorem ofCode_eq_ok (usable : ∀ code ∈ codes, code.size < 2 ^ 60 → code.Usable t.count)
    (distinct : t.Distinct)
    (e : ofCode settings t codes = (.ok (.ok m) : Except Halt (Except LoadError Machine))) :
    m.LoadedFrom settings codes t := by
  unfold ofCode at e
  split at e
  · cases e
  obtain ⟨⟨heap, clauses⟩, stored, e⟩ := Loading.bind_eq_ok.mp e
  have none : Heap.empty.Closed 0 t.count := by
    intro a c _ found
    exact absurd (Heap.lt_top_of_get? found) (Nat.not_lt_zero a)
  have root : Heap.empty.Rooted := by
    intro a c found
    exact absurd (Heap.lt_top_of_get? found) (Nat.not_lt_zero a)
  obtain ⟨good, rooted, image, list⟩ := Program.storeCodes_eq_ok usable none root stored
  dsimp only at e
  split at e
  · cases e
  · next query last =>
    obtain ⟨_, counted, e⟩ := Loading.bind_eq_ok.mp e
    rw [Loading.lift_eq_ok, Symbols.checkCount_eq_ok] at counted
    rw [Loading.lift_eq_ok] at e
    obtain ⟨store, restored, e⟩ := Halt.bind_eq_ok.mp e
    cases e
    have same := (Store.Extends.refl ⟨heap, {}⟩).restore
    rw [show (⟨heap, {}⟩ : Store).trail.mark = 0 from rfl] at same
    rw [same, Except.ok.injEq] at restored
    subst restored
    refine ⟨rfl, rfl, image, rfl, list, last, rfl, ?_, rfl, rfl, good, rooted,
      ⟨distinct, counted⟩⟩
    intro index chosen
    dsimp only at chosen ⊢
    split at chosen
    · cases chosen
      rfl
    · cases chosen

theorem LoadedFrom.of_ofSentences {ss : List Sentence} (readable : ∀ s ∈ ss, s.Readable)
    (e : ofSentences settings ss = (.ok (.ok m) : Except Halt (Except LoadError Machine))) :
    ∃ codes t, linkAll {} ss = .ok (codes, t) ∧
      List.Forall₂ (fun s code => ∃ es, s.expandLists = .ok es ∧ Renders t es code) ss codes ∧
      m.LoadedFrom settings codes t := by
  unfold ofSentences at e
  cases linked : linkAll {} ss with
  | error err =>
    rw [linked] at e
    cases e
  | ok result =>
    obtain ⟨codes, t⟩ := result
    rw [linked] at e
    dsimp only at e
    obtain ⟨distinct, -, renders⟩ := linkAll_spec Symbols.distinct_empty readable linked
    have rendered := renders t (.refl t)
    refine ⟨codes, t, rfl, rendered, ofCode_eq_ok (fun code member small => ?_) distinct e⟩
    obtain ⟨s, -, es, -, renders⟩ := exists_left rendered member
    exact renders.usable small

theorem LoadedFrom.of_ofText {text : String}
    (e : ofText settings text = (.ok (.ok m) : Except Halt (Except LoadError Machine))) :
    ∃ ss codes t, readProgram text = .ok ss ∧ linkAll {} ss = .ok (codes, t) ∧
      List.Forall₂ (fun s code => ∃ es, s.expandLists = .ok es ∧ Renders t es code) ss codes ∧
      m.LoadedFrom settings codes t := by
  unfold ofText at e
  cases read : readProgram text with
  | error err =>
    rw [read] at e
    cases e
  | ok ss =>
    rw [read] at e
    obtain ⟨codes, t, loaded⟩ := LoadedFrom.of_ofSentences (readable_of_readProgram read) e
    exact ⟨ss, codes, t, rfl, loaded⟩

end Machine

theorem Machine.exists_loaded {settings : Settings} {text : String} {check : Machine → Bool}
    (passed : ((ofText settings text : Except Halt (Except LoadError Machine)).toOption.any fun r =>
      r.toOption.any check) = true) :
    ∃ m, ofText settings text = (.ok (.ok m) : Except Halt (Except LoadError Machine)) ∧
      check m = true := by
  obtain ⟨r, loaded, passed⟩ := exists_ok_of_any passed
  obtain ⟨m, rfl, passed⟩ := exists_ok_of_any passed
  exact ⟨m, loaded, passed⟩

end HornMachine
