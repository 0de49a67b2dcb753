import HornMachine.Proofs.ClosedHeap
import HornMachine.Proofs.TermReading

/-!
# Reading terms out of a closed region

Inside a closed region every variable chain ends and every reference leads to a
complete block. So a structure is never cut short for lack of cells, and every term
of the region is read out.
-/
namespace HornMachine.Heap

variable {h : Heap} {symbols : Symbols} {lo count a n : Nat} {c : Cell}

theorem openStructure_of_header (header : h.get? a = some (.header n)) (inside : a + n < h.top) :
    h.openStructure symbols a = .ok (.block a (h.span (a + 1) n)) := by
  have bound := h.top_lt
  have addr : (Cell.header n).addr = n := Cell.addr_header (by omega)
  have stop : spanEnd (a + 1) n = a + 1 + n := Nat.mod_eq_of_lt (by omega)
  have sign : ¬ (Cell.header n).payload < 0 := by
    rw [Cell.payload_eq_addr (by omega)]
    omega
  have elements : (h.cells.extract (a + 1) (a + 1 + n)).toList = h.span (a + 1) n := by
    rw [Array.toList_extract, List.extract_eq_take_drop, Nat.add_sub_cancel_left]
    rfl
  unfold openStructure
  rw [header]
  simp only [Cell.tag_header, ↓reduceIte, addr, stop, sign, elements]
  rw [if_neg (by omega)]

theorem HasBlock.terms (block : h.HasBlock a n) (closed : h.Closed lo count) (low : lo ≤ a) :
    ∀ e ∈ h.span (a + 1) n, h.IsTerm lo count e := by
  intro e member
  have inside := block.count_le
  obtain ⟨i, found⟩ := List.mem_iff_getElem?.mp member
  have short : i < n := by
    have := (List.getElem?_eq_some_iff.mp found).choose
    rwa [length_span (by omega)] at this
  rw [getElem?_span short] at found
  obtain ⟨c, found', element⟩ := block.2 i short
  rw [found, Option.some.injEq] at found'
  subst found'
  exact (closed _ e (by omega) found element).1

theorem Closed.exists_openCell (closed : h.Closed lo count) (term : h.IsTerm lo count c)
    (symbols : Symbols) :
    ∃ o, h.openCell symbols c = .ok o ∧
      ∀ a elements, o = .block a elements → ∀ e ∈ elements, h.IsTerm lo count e := by
  obtain ⟨x, ended⟩ := closed.exists_deref term
  have value := (Leads.of_deref ended).term closed term
  simp only [openCell, ended, Halt.ok_bind]
  split
  · exact ⟨_, rfl, by simp⟩
  · exact ⟨_, rfl, by simp⟩
  · exact ⟨_, rfl, by simp⟩
  · next tag =>
    obtain ⟨low, n, block⟩ := value.ref tag
    refine ⟨_, openStructure_of_header block.1 block.count_le, ?_⟩
    intro a elements same
    cases same
    exact block.terms closed low
  · exact ⟨_, rfl, by simp⟩

theorem exists_mapM {f : Cell → Except Halt Term} {cs : List Cell}
    (each : ∀ c ∈ cs, ∃ t, f c = .ok t) : ∃ ts, cs.mapM f = .ok ts := by
  induction cs with
  | nil => exact ⟨[], rfl⟩
  | cons c cs ih =>
    obtain ⟨⟨t, here⟩, others⟩ := List.forall_mem_cons.mp each
    obtain ⟨ts, later⟩ := ih others
    exact ⟨t :: ts, by rw [List.mapM_cons, here, Halt.ok_bind, later]; rfl⟩

theorem mapM_eq_ok {f : Cell → Except Halt Term} {cs : List Cell} {ts : List Term} :
    cs.mapM f = .ok ts ↔ ts.length = cs.length ∧
      ∀ (i : Nat) c t, cs[i]? = some c → ts[i]? = some t → f c = .ok t := by
  induction cs generalizing ts with
  | nil =>
    rw [List.mapM_nil, Halt.pure_eq_ok, List.length_nil, List.length_eq_zero_iff, eq_comm]
    exact ⟨fun empty => ⟨empty, nofun⟩, fun both => both.1⟩
  | cons c cs ih =>
    simp only [List.mapM_cons, Halt.bind_eq_ok, Halt.pure_eq_ok, ih]
    constructor
    · rintro ⟨t, here, ts, ⟨lengths, later⟩, rfl⟩
      refine ⟨congrArg (· + 1) lengths, fun i d u atD atU => ?_⟩
      cases i with
      | zero =>
        cases atD
        cases atU
        exact here
      | succ i => exact later i d u atD atU
    · rintro ⟨lengths, each⟩
      obtain ⟨t, ts, rfl⟩ := List.exists_cons_of_length_eq_add_one lengths
      exact ⟨t, each 0 c t rfl rfl, ts, ⟨Nat.succ.inj lengths, fun i => each (i + 1)⟩, rfl⟩

/-- The term a cell opens as inside the structures with headers at `path`, by what cells are
opened to. -/
inductive OpensAs (h : Heap) (symbols : Symbols) : List Nat → Cell → Term → Prop
  | leaf {path : List Nat} {c : Cell} {t : Term} :
      h.openCell symbols c = .ok (.leaf t) → OpensAs h symbols path c t
  | array {path : List Nat} {c : Cell} {a : Nat} {elements : List Cell} {ts : List Term} :
      h.openCell symbols c = .ok (.block a elements) → a ∉ path → path.length ≤ maxDepth →
      ts.length = elements.length →
      (∀ (i : Nat) d t, elements[i]? = some d → ts[i]? = some t →
        OpensAs h symbols (a :: path) d t) →
      OpensAs h symbols path c (.array ts)
  | cut {path : List Nat} {c : Cell} {a : Nat} {elements : List Cell} :
      h.openCell symbols c = .ok (.block a elements) → a ∈ path ∨ maxDepth < path.length →
      OpensAs h symbols path c (.label "...")

/-- What is read is what the recursion returns, with as many structures left to open as the path
leaves. -/
theorem termAt_eq_ok {left : Nat} {path : List Nat} {t : Term}
    (depth : left + path.length = maxDepth + 1) :
    h.termAt symbols left path c = .ok t ↔ h.OpensAs symbols path c t := by
  constructor
  · intro read
    induction left using Nat.strong_induction_on generalizing path c t with
    | _ left ih =>
      cases opened : h.openCell symbols c with
      | error e =>
        rw [termAt_error opened] at read
        cases read
      | ok o =>
        cases o with
        | leaf u =>
          rw [termAt_leaf opened, Except.ok.injEq] at read
          exact .leaf (read ▸ opened)
        | block a elements =>
          by_cases cut : left = 0 ∨ a ∈ path
          · rw [termAt_cut opened cut, Except.ok.injEq] at read
            exact read ▸ .cut opened (cut.symm.imp_right fun none => by omega)
          · obtain ⟨some, new⟩ := not_or.mp cut
            obtain ⟨left, rfl⟩ := Nat.exists_eq_succ_of_ne_zero some
            rw [termAt_block opened new] at read
            obtain ⟨ts, read, same⟩ := Halt.bind_eq_ok.mp read
            obtain ⟨lengths, each⟩ := mapM_eq_ok.mp read
            rw [← Except.ok.inj same]
            refine .array opened new (by omega) lengths fun i d u atD atU => ?_
            exact ih left (Nat.lt_succ_self left) (by rw [List.length_cons]; omega)
              (each i d u atD atU)
  · intro read
    induction read generalizing left with
    | leaf opened => exact termAt_leaf opened
    | cut opened deep =>
      refine termAt_cut opened (deep.symm.imp_left fun deep => ?_)
      omega
    | array opened new shallow lengths _ ih =>
      obtain ⟨left, rfl⟩ : ∃ less, left = less + 1 := ⟨left - 1, by omega⟩
      rw [termAt_block opened new, mapM_eq_ok.mpr ⟨lengths, fun i d t atD atT =>
        ih i d t atD atT (by rw [List.length_cons]; omega)⟩]
      rfl

theorem readout_eq_ok {t : Term} : h.readout symbols c = .ok t ↔ h.OpensAs symbols [] c t := by
  rw [readout_eq]
  exact termAt_eq_ok rfl

/-- A cell has a reading inside any structures, if it and the elements that are opened
with it can be opened. -/
theorem exists_termAt {P : Cell → Prop} (opens : ∀ c, P c → ∃ o,
      h.openCell symbols c = .ok o ∧ ∀ a elements, o = .block a elements → ∀ e ∈ elements, P e)
    (start : P c) (left : Nat) (path : List Nat) :
    ∃ t, h.termAt symbols left path c = .ok t := by
  induction left generalizing c path with
  | zero =>
    obtain ⟨o, opened, -⟩ := opens c start
    cases o with
    | leaf t => exact ⟨t, termAt_leaf opened⟩
    | block a elements => exact ⟨_, termAt_cut opened (.inl rfl)⟩
  | succ left ih =>
    obtain ⟨o, opened, inner⟩ := opens c start
    cases o with
    | leaf t => exact ⟨t, termAt_leaf opened⟩
    | block a elements =>
      by_cases again : a ∈ path
      · exact ⟨_, termAt_cut opened (.inr again)⟩
      · obtain ⟨ts, read⟩ := exists_mapM fun e member => ih (inner a elements rfl e member) _
        exact ⟨.array ts, by rw [termAt_block opened again, read]; rfl⟩

theorem Closed.exists_termAt (closed : h.Closed lo count) (term : h.IsTerm lo count c)
    (symbols : Symbols) (left : Nat) (path : List Nat) :
    ∃ t, h.termAt symbols left path c = .ok t :=
  Heap.exists_termAt (fun _ term => closed.exists_openCell term symbols) term left path

theorem Closed.exists_readout (closed : h.Closed lo count) (term : h.IsTerm lo count c)
    (symbols : Symbols) : ∃ t, h.readout symbols c = .ok t := by
  rw [readout_eq]
  exact closed.exists_termAt term symbols _ _

end HornMachine.Heap
