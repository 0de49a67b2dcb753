import HornMachine.Proofs.ChainEnds
import HornMachine.Proofs.RecursiveReading

/-!
# Reading out malformed content

Nearly all malformed content is shown as a label: unknown symbols, references without a
header, arrays past the end of the heap, cells of no term. Three things are not, and they
stop the whole readout: a chain of variables that leaves the heap, one that runs in a
ring, and a reference to a header whose negative count leads back into the heap.

So a cell is read out exactly if nothing of the kind is met in the structures that are
opened, and then every cell met is shown with its value or with the label for it.
-/
namespace HornMachine.Heap

/-- What a dereferenced cell is shown as when it is not opened. A negative count that leads
to before the start of the heap is a count past its end, as addresses wrap. -/
inductive Shown (h : Heap) (symbols : Symbols) (x : Cell) : Term → Prop
  | plain {t : Term} : Plain h symbols x t → Shown h symbols x t
  | wrapped {d : Cell} : x.tag = .structRef → h.get? x.addr = some d → d.tag = .arrayHeader →
      x.addr + 1 + d.payload < 0 →
      Shown h symbols x (.label ("*** index out of range: " ++ (x.addr + 1).repr ++ ".." ++
        (2 ^ 64 + (x.addr + 1 + d.payload)).toNat.repr))

/-- The term a cell is shown as inside the structures with headers at `path`. -/
inductive ShownAs (h : Heap) (symbols : Symbols) : List Nat → Cell → Term → Prop
  | leaf {path : List Nat} {c x : Cell} {t : Term} :
      h.Leads c x → Shown h symbols x t → ShownAs h symbols path c t
  | array {path : List Nat} {c x : Cell} {n : Nat} {ts : List Term} :
      h.Leads c x → h.Spans x n → x.addr ∉ path → path.length ≤ maxDepth → ts.length = n →
      (∀ (i : Nat) d t, i < n → h.get? (x.addr + 1 + i) = some d → ts[i]? = some t →
        ShownAs h symbols (x.addr :: path) d t) →
      ShownAs h symbols path c (.array ts)
  | cut {path : List Nat} {c x : Cell} {n : Nat} :
      h.Leads c x → h.Spans x n → x.addr ∈ path ∨ maxDepth < path.length →
      ShownAs h symbols path c (.label "...")

/-- What stops the readout at a cell: its chain leaves the heap, or runs in a ring, or comes to
a reference to a header whose negative count leads back into the heap. -/
inductive Fault (h : Heap) (c : Cell) : Halt → Prop
  | strays : h.Strays c → Fault h c .outOfRange
  | rings : h.Rings c → Fault h c .unfinished
  | backwards {x d : Cell} : h.Leads c x → x.tag = .structRef → h.get? x.addr = some d →
      d.tag = .arrayHeader → d.payload < 0 → 0 ≤ x.addr + 1 + d.payload → Fault h c .full

/-- Reading the first cell inside the structures with headers at `path` meets the second: it
is that cell, or met in an element of the structure that is opened. -/
inductive Meets (h : Heap) : List Nat → Cell → Cell → Prop
  | self {path : List Nat} {c : Cell} : Meets h path c c
  | element {path : List Nat} {c x e d : Cell} {n i : Nat} :
      h.Leads c x → h.Spans x n → x.addr ∉ path → path.length ≤ maxDepth → i < n →
      h.get? (x.addr + 1 + i) = some e → Meets h (x.addr :: path) e d → Meets h path c d

variable {h : Heap} {symbols : Symbols} {c d x : Cell} {n left : Nat} {path : List Nat} {t : Term}
  {err : Halt}

/-! ### Opening any cell -/

theorem openCell_of_leads (leads : h.Leads c x) (ref : x.tag = .structRef) :
    h.openCell symbols c = h.openStructure symbols x.addr := by
  rw [openCell, deref_eq_ok.mpr leads, Halt.ok_bind, ref]

theorem openStructure_negative {a : Nat} (found : h.get? a = some d) (header : d.tag = .arrayHeader)
    (negative : d.payload < 0) :
    h.openStructure symbols a =
      if a + 1 + d.payload < 0 then
        .ok (.leaf (.label ("*** index out of range: " ++ (a + 1).repr ++ ".." ++
          (2 ^ 64 + (a + 1 + d.payload)).toNat.repr)))
      else .error .full := by
  have inside := lt_top_of_get? found
  have limit := h.top_lt
  have lower := d.le_payload
  have addr : d.addr = (d.payload + 2 ^ 64).toNat := by
    rw [Cell.addr, if_neg (by omega)]
    rfl
  have stop : spanEnd (a + 1) d.addr = (a + 1 + d.addr) % 2 ^ 64 := rfl
  rw [openStructure, found]
  simp only [header, ↓reduceIte, negative]
  by_cases before : a + 1 + d.payload < 0
  · have past : spanEnd (a + 1) d.addr = (2 ^ 64 + (a + 1 + d.payload)).toNat := by omega
    rw [if_pos before, past, if_pos (by omega)]
  · rw [if_neg before, if_neg (by omega)]

theorem Fault.openCell (fault : h.Fault c err) : h.openCell symbols c = .error err := by
  cases fault with
  | strays strays => rw [Heap.openCell, deref_eq_outOfRange.mpr strays]; rfl
  | rings rings => rw [Heap.openCell, deref_eq_unfinished.mpr rings]; rfl
  | backwards leads ref found header negative back =>
    rw [openCell_of_leads leads ref, openStructure_negative found header negative,
      if_neg (Int.not_lt.mpr back)]

theorem Shown.openCell (shown : h.Shown symbols x t) (leads : h.Leads c x) :
    h.openCell symbols c = .ok (.leaf t) := by
  cases shown with
  | plain plain => exact plain.openCell (deref_eq_ok.mpr leads)
  | @wrapped d ref found header before =>
    have negative : d.payload < 0 := by omega
    rw [openCell_of_leads leads ref, openStructure_negative found header negative, if_pos before]

theorem cell_shape (h : Heap) (symbols : Symbols) (c : Cell) :
    (∃ e, h.Fault c e) ∨ (∃ x, h.Leads c x ∧ ∃ t, h.Shown symbols x t) ∨
      ∃ x, h.Leads c x ∧ ∃ n, h.Spans x n := by
  rcases h.deref_cases c with ⟨x, leads, -⟩ | ⟨strays, -⟩ | ⟨rings, -⟩
  · rcases h.shape_cases symbols x with ⟨t, plain⟩ | spans | ⟨d, ref, found, header, negative⟩
    · exact .inr (.inl ⟨x, leads, t, .plain plain⟩)
    · exact .inr (.inr ⟨x, leads, spans⟩)
    · by_cases before : x.addr + 1 + d.payload < 0
      · exact .inr (.inl ⟨x, leads, _, .wrapped ref found header before⟩)
      · exact .inl ⟨_, .backwards leads ref found header negative (Int.not_lt.mp before)⟩
  · exact .inl ⟨_, .strays strays⟩
  · exact .inl ⟨_, .rings rings⟩

/-! ### What a readout shows -/

theorem ShownAs.opensAs (shown : h.ShownAs symbols path c t) : h.OpensAs symbols path c t := by
  induction shown with
  | leaf leads shown => exact .leaf (shown.openCell leads)
  | cut leads spans deep => exact .cut (spans.openCell (deref_eq_ok.mpr leads)) deep
  | array leads spans new shallow lengths _ ih =>
    obtain ⟨lengths, each⟩ := spans.forall_elements.mpr ⟨lengths, ih⟩
    exact .array (spans.openCell (deref_eq_ok.mpr leads)) new shallow lengths each

theorem ShownAs.of_opensAs (read : h.OpensAs symbols path c t) : h.ShownAs symbols path c t := by
  have shape {c : Cell} {o : Opened} (opened : h.openCell symbols c = .ok o) :
      (∃ x, h.Leads c x ∧ ∃ t, h.Shown symbols x t ∧ o = .leaf t) ∨
        ∃ x, h.Leads c x ∧ ∃ n, h.Spans x n ∧ o = .block x.addr (h.span (x.addr + 1) n) := by
    rcases h.cell_shape symbols c with ⟨e, fault⟩ | ⟨x, leads, t, shown⟩ | ⟨x, leads, n, spans⟩
    · rw [fault.openCell] at opened
      cases opened
    · have same := opened.symm.trans (shown.openCell leads)
      exact .inl ⟨x, leads, t, shown, Except.ok.inj same⟩
    · have same := opened.symm.trans (spans.openCell (deref_eq_ok.mpr leads))
      exact .inr ⟨x, leads, n, spans, Except.ok.inj same⟩
  induction read with
  | leaf opened =>
    obtain ⟨x, leads, t, shown, same⟩ | ⟨x, -, n, -, same⟩ := shape opened
    · cases same
      exact .leaf leads shown
    · cases same
  | cut opened deep =>
    obtain ⟨x, -, t, -, same⟩ | ⟨x, leads, n, spans, same⟩ := shape opened
    · cases same
    · cases same
      exact .cut leads spans deep
  | array opened new shallow lengths _ ih =>
    obtain ⟨x, -, t, -, same⟩ | ⟨x, leads, n, spans, same⟩ := shape opened
    · cases same
    · cases same
      obtain ⟨lengths, each⟩ := spans.forall_elements.mp ⟨lengths, ih⟩
      exact .array leads spans new shallow lengths each

/-! ### What stops a readout -/

theorem exists_mapM_error {f : Cell → Except Halt Term} {cs : List Cell}
    (failed : cs.mapM f = .error err) : ∃ c ∈ cs, f c = .error err := by
  induction cs with
  | nil => cases failed
  | cons c cs ih =>
    rw [List.mapM_cons, Halt.bind_eq_error] at failed
    rcases failed with here | ⟨t, -, failed⟩
    · exact ⟨c, List.mem_cons_self .., here⟩
    · rcases Halt.bind_eq_error.mp failed with later | ⟨ts, -, failed⟩
      · obtain ⟨d, member, later⟩ := ih later
        exact ⟨d, List.mem_cons_of_mem _ member, later⟩
      · cases failed

theorem Spans.exists_of_mem (spans : h.Spans x n) (member : d ∈ h.span (x.addr + 1) n) :
    ∃ i, i < n ∧ h.get? (x.addr + 1 + i) = some d := by
  obtain ⟨i, found⟩ := List.mem_iff_getElem?.mp member
  have inside := spans.2.2
  have short : i < n := by
    have := (List.getElem?_eq_some_iff.mp found).choose
    rwa [length_span (by omega)] at this
  exact ⟨i, short, by rwa [getElem?_span short] at found⟩

/-- A readout that is stopped is stopped by a fault that it meets. -/
theorem exists_fault_of_error (depth : left + path.length = maxDepth + 1)
    (failed : h.termAt symbols left path c = .error err) : ∃ d, h.Meets path c d ∧ h.Fault d err := by
  induction left using Nat.strong_induction_on generalizing path c with
  | _ left ih =>
    rcases h.cell_shape symbols c with ⟨e, fault⟩ | ⟨x, leads, t, shown⟩ | ⟨x, leads, n, spans⟩
    · rw [termAt_error fault.openCell] at failed
      cases failed
      exact ⟨c, .self, fault⟩
    · rw [termAt_leaf (shown.openCell leads)] at failed
      cases failed
    · have opened : h.openCell symbols c = _ := spans.openCell (deref_eq_ok.mpr leads)
      by_cases cut : left = 0 ∨ x.addr ∈ path
      · rw [termAt_cut opened cut] at failed
        cases failed
      · obtain ⟨some, new⟩ := not_or.mp cut
        obtain ⟨left, rfl⟩ := Nat.exists_eq_succ_of_ne_zero some
        rw [termAt_block opened new] at failed
        rcases Halt.bind_eq_error.mp failed with failed | ⟨ts, -, failed⟩
        · obtain ⟨e, member, failed⟩ := exists_mapM_error failed
          obtain ⟨i, short, found⟩ := spans.exists_of_mem member
          obtain ⟨d, meets, fault⟩ :=
            ih left (Nat.lt_succ_self left) (by rw [List.length_cons]; omega) failed
          exact ⟨d, .element leads spans new (by omega) short found meets, fault⟩
        · cases failed

theorem Meets.not_opensAs (meets : h.Meets path c d) (fault : h.Fault d err) :
    ¬ h.OpensAs symbols path c t := by
  induction meets generalizing t with
  | self =>
    intro read
    have stopped : h.openCell symbols _ = _ := fault.openCell
    cases read with
    | leaf opened => exact Halt.ok_ne_error (opened.symm.trans stopped)
    | array opened _ _ _ _ => exact Halt.ok_ne_error (opened.symm.trans stopped)
    | cut opened _ => exact Halt.ok_ne_error (opened.symm.trans stopped)
  | @element path c x e d n i leads spans new shallow short found _ ih =>
    intro read
    have block : h.openCell symbols c = _ := spans.openCell (deref_eq_ok.mpr leads)
    cases read with
    | leaf opened => cases opened.symm.trans block
    | cut opened deep =>
      cases opened.symm.trans block
      rcases deep with again | deep
      · exact new again
      · exact absurd shallow (Nat.not_le.mpr deep)
    | @array _ _ _ _ ts opened _ _ lengths each =>
      cases opened.symm.trans block
      have inside := spans.2.2
      rw [length_span (by omega)] at lengths
      have term : ts[i]? = some ts[i] := List.getElem?_eq_getElem (by omega)
      exact ih fault (each i e _ (by rwa [getElem?_span short]) term)

/-- Whatever the heap holds, a cell is read out exactly if no fault is met in it, and then as
it is shown. A readout that returns nothing was stopped by a fault that is met, and reads
outside the heap only where a chain of variables leaves it. -/
theorem readout_iff (h : Heap) (symbols : Symbols) (c : Cell) :
    ((∃ t, h.readout symbols c = .ok t) ↔ ¬ ∃ d e, h.Meets [] c d ∧ h.Fault d e) ∧
    (∀ t, h.readout symbols c = .ok t ↔ h.ShownAs symbols [] c t) ∧
    ∀ e, h.readout symbols c = .error e → ∃ d, h.Meets [] c d ∧ h.Fault d e := by
  have stopped (e : Halt) (failed : h.readout symbols c = .error e) :
      ∃ d, h.Meets [] c d ∧ h.Fault d e := by
    rw [readout_eq] at failed
    exact exists_fault_of_error rfl failed
  refine ⟨⟨?_, fun clean => ?_⟩, fun t => ?_, stopped⟩
  · rintro ⟨t, read⟩ ⟨d, e, meets, fault⟩
    exact meets.not_opensAs fault (readout_eq_ok.mp read)
  · cases result : h.readout symbols c with
    | ok t => exact ⟨t, rfl⟩
    | error e =>
      obtain ⟨d, meets, fault⟩ := stopped e result
      exact absurd ⟨d, e, meets, fault⟩ clean
  · rw [readout_eq_ok]
    exact ⟨.of_opensAs, ShownAs.opensAs⟩

/-- On a heap without cells, a variable stops the readout. -/
theorem readout_dangling :
    ¬ ∀ (h : Heap) (symbols : Symbols) (c : Cell), ∃ t, h.readout symbols c = .ok t := by
  intro total
  obtain ⟨t, read⟩ := total .empty ⟨#[]⟩ (.var 5)
  have stopped : Heap.empty.readout ⟨#[]⟩ (.var 5) = .error .outOfRange := by rfl
  rw [read] at stopped
  cases stopped

end HornMachine.Heap
