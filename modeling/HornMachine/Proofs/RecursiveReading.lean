import HornMachine.Proofs.Readouts
import HornMachine.Proofs.SameTrees

/-!
# Reading out as a recursion

What is read out at a cell is said here without frames and without looking at how a
cell is opened. `Plain` lists what a dereferenced cell says on its own; `ReadsAs` goes
through the elements of a structure, carrying the headers on the path from the root.

Where chains end and no header has a negative count, every cell has exactly one
reading, and it is what is read out. The path alone bounds the recursion, so cyclic
terms have a reading too: a structure met again on its own path is cut off, and one
that is only shared is read again.
-/
namespace HornMachine.Heap

/-- `x` refers to a structure of `n` elements that lies inside the heap. -/
def Spans (h : Heap) (x : Cell) (n : Nat) : Prop :=
  x.tag = .structRef ∧ h.get? x.addr = some (.header n) ∧ x.addr + n < h.top

/-- What a dereferenced cell is read as when it is no structure inside the heap. -/
inductive Plain (h : Heap) (symbols : Symbols) (x : Cell) : Term → Prop
  | named {id : Nat} {name : String} : x.tag = .constant → x.payload = id →
      symbols.resolve id = some name → Plain h symbols x (.label name)
  | unnamed : x.tag = .constant → (∀ id : Nat, x.payload = id → symbols.resolve id = none) →
      Plain h symbols x (.label ("BADSYMREF=" ++ x.payload.repr))
  | number : x.tag = .number → Plain h symbols x (.int x.payload)
  | unbound : x.tag = .unboundVar → Plain h symbols x (.label ("V" ++ x.addr.repr))
  | dangling : x.tag = .structRef → h.get? x.addr = none →
      Plain h symbols x (.label ("*** index out of range: " ++ x.addr.repr))
  | headless {d : Cell} : x.tag = .structRef → h.get? x.addr = some d →
      d.tag ≠ .arrayHeader →
      Plain h symbols x (.label ("*** should be A, found=" ++ symbols.showCell d))
  | short {d : Cell} {n : Nat} : x.tag = .structRef → h.get? x.addr = some d →
      d.tag = .arrayHeader → d.payload = n → h.top ≤ x.addr + n →
      Plain h symbols x (.label ("*** index out of range: " ++ (x.addr + 1).repr ++ ".." ++
        (x.addr + 1 + n).repr))
  | other : x.tag = .varRef ∨ x.tag = .arrayHeader ∨ x.tag = .malformed →
      Plain h symbols x (.label ("*BAD TERM*" ++ symbols.showCell x))

/-- The term a cell is read as inside the structures with headers at `path`. -/
inductive ReadsAs (h : Heap) (symbols : Symbols) : List Nat → Cell → Term → Prop
  | plain {path : List Nat} {c x : Cell} {t : Term} :
      h.deref c = .ok x → Plain h symbols x t → ReadsAs h symbols path c t
  | array {path : List Nat} {c x : Cell} {n : Nat} {ts : List Term} :
      h.deref c = .ok x → h.Spans x n → x.addr ∉ path → path.length ≤ maxDepth →
      ts.length = n →
      (∀ (i : Nat) d t, i < n → h.get? (x.addr + 1 + i) = some d → ts[i]? = some t →
        ReadsAs h symbols (x.addr :: path) d t) →
      ReadsAs h symbols path c (.array ts)
  | cut {path : List Nat} {c x : Cell} {n : Nat} :
      h.deref c = .ok x → h.Spans x n → x.addr ∈ path ∨ maxDepth < path.length →
      ReadsAs h symbols path c (.label "...")

variable {h : Heap} {symbols : Symbols} {c x : Cell} {n left : Nat} {path : List Nat} {t : Term}

/-! ### Opening a cell -/

theorem Plain.openCell (plain : h.Plain symbols x t) (ended : h.deref c = .ok x) :
    h.openCell symbols c = .ok (.leaf t) := by
  rw [Heap.openCell, ended, Halt.ok_bind]
  cases plain with
  | named tag payload resolved => simp [tag, payload, Symbols.nameOf, resolved]
  | unnamed tag unresolved =>
    simp [tag, Symbols.nameOf_unresolved unresolved]
  | number tag => simp [tag]
  | unbound tag => simp [tag]
  | dangling tag absent => simp [tag, openStructure, absent]
  | headless tag found other => simp [tag, openStructure, found, other]
  | @short d n tag found header count past =>
    have low := lt_top_of_get? found
    have limit := h.top_lt
    have bound := d.payload_lt
    have stop : spanEnd (x.addr + 1) n = x.addr + 1 + n := Nat.mod_eq_of_lt (by omega)
    have outside : h.top < x.addr + 1 + n := by omega
    simp [tag, openStructure, found, header, Cell.addr_eq_of_payload count, stop, outside]
  | other tag => rcases tag with tag | tag | tag <;> simp [tag]

theorem Spans.openCell (spans : h.Spans x n) (ended : h.deref c = .ok x) :
    h.openCell symbols c = .ok (.block x.addr (h.span (x.addr + 1) n)) := by
  obtain ⟨tag, header, inside⟩ := spans
  rw [Heap.openCell, ended, Halt.ok_bind, tag]
  exact openStructure_of_header header inside

/-- A cell is plain, a structure, or refers to a header with a negative count. -/
theorem shape_cases (h : Heap) (symbols : Symbols) (x : Cell) :
    (∃ t, h.Plain symbols x t) ∨ (∃ n, h.Spans x n) ∨
      ∃ d, x.tag = .structRef ∧ h.get? x.addr = some d ∧ d.tag = .arrayHeader ∧
        d.payload < 0 := by
  cases tag : x.tag with
  | constant =>
    by_cases known : ∃ (id : Nat) (name : String),
        x.payload = id ∧ symbols.resolve id = some name
    · obtain ⟨id, name, payload, resolved⟩ := known
      exact .inl ⟨_, .named tag payload resolved⟩
    · refine .inl ⟨_, .unnamed tag fun id payload => ?_⟩
      cases resolved : symbols.resolve id with
      | none => rfl
      | some name => exact absurd ⟨id, name, payload, resolved⟩ known
  | number => exact .inl ⟨_, .number tag⟩
  | unboundVar => exact .inl ⟨_, .unbound tag⟩
  | structRef =>
    cases found : h.get? x.addr with
    | none => exact .inl ⟨_, .dangling tag found⟩
    | some d =>
      by_cases header : d.tag = .arrayHeader
      · by_cases negative : d.payload < 0
        · exact .inr (.inr ⟨d, rfl, rfl, header, negative⟩)
        obtain ⟨n, count⟩ := Int.eq_ofNat_of_zero_le (Int.not_lt.mp negative)
        have bound := d.payload_lt
        by_cases inside : x.addr + n < h.top
        · have same : d = .header n := Cell.eq_make (by decide) header
            (Cell.addr_eq_of_payload count) (by omega)
          exact .inr (.inl ⟨n, tag, same ▸ found, inside⟩)
        · exact .inl ⟨_, .short tag found header count (by omega)⟩
      · exact .inl ⟨_, .headless tag found header⟩
  | varRef => exact .inl ⟨_, .other (.inl tag)⟩
  | arrayHeader => exact .inl ⟨_, .other (.inr (.inl tag))⟩
  | malformed => exact .inl ⟨_, .other (.inr (.inr tag))⟩

theorem exists_plain_or_spans (symbols : Symbols)
    (counts : ∀ a d, h.get? a = some d → d.tag = .arrayHeader → 0 ≤ d.payload) (x : Cell) :
    (∃ t, h.Plain symbols x t) ∨ ∃ n, h.Spans x n := by
  rcases h.shape_cases symbols x with plain | spans | ⟨d, -, found, header, negative⟩
  · exact .inl plain
  · exact .inr spans
  · exact absurd (counts _ d found header) (Int.not_le.mpr negative)

/-! ### One reading -/

theorem Spans.forall_elements {P : Cell → Term → Prop} {ts : List Term} (spans : h.Spans x n) :
    (ts.length = (h.span (x.addr + 1) n).length ∧
      ∀ (i : Nat) d t, (h.span (x.addr + 1) n)[i]? = some d → ts[i]? = some t → P d t) ↔
    ts.length = n ∧
      ∀ (i : Nat) d t, i < n → h.get? (x.addr + 1 + i) = some d → ts[i]? = some t → P d t := by
  have inside := spans.2.2
  rw [length_span (by omega)]
  refine and_congr_right fun lengths => ⟨fun each i d t short atD atT => ?_, ?_⟩
  · exact each i d t (by rwa [getElem?_span short]) atT
  · intro each i d t atD atT
    have short : i < n := by
      have := (List.getElem?_eq_some_iff.mp atT).choose
      omega
    rw [getElem?_span short] at atD
    exact each i d t short atD atT

theorem ReadsAs.opensAs (reads : h.ReadsAs symbols path c t) : h.OpensAs symbols path c t := by
  induction reads with
  | plain ended plain => exact .leaf (plain.openCell ended)
  | cut ended spans deep => exact .cut (spans.openCell ended) deep
  | array ended spans new shallow lengths _ ih =>
    obtain ⟨lengths, each⟩ := spans.forall_elements.mpr ⟨lengths, ih⟩
    exact .array (spans.openCell ended) new shallow lengths each

theorem ReadsAs.of_opensAs
    (counts : ∀ a d, h.get? a = some d → d.tag = .arrayHeader → 0 ≤ d.payload)
    (read : h.OpensAs symbols path c t) : h.ReadsAs symbols path c t := by
  have shape {c : Cell} {o : Opened} (opened : h.openCell symbols c = .ok o) :
      ∃ x, h.deref c = .ok x ∧ ((∃ t, h.Plain symbols x t ∧ o = .leaf t) ∨
        ∃ n, h.Spans x n ∧ o = .block x.addr (h.span (x.addr + 1) n)) := by
    obtain ⟨x, ended, -⟩ := Halt.bind_eq_ok.mp opened
    refine ⟨x, ended, ?_⟩
    rcases exists_plain_or_spans symbols counts x with ⟨t, plain⟩ | ⟨n, spans⟩
    · exact .inl ⟨t, plain, Except.ok.inj (opened.symm.trans (plain.openCell ended))⟩
    · exact .inr ⟨n, spans, Except.ok.inj (opened.symm.trans (spans.openCell ended))⟩
  induction read with
  | leaf opened =>
    obtain ⟨x, ended, ⟨t, plain, same⟩ | ⟨n, -, same⟩⟩ := shape opened
    · cases same
      exact .plain ended plain
    · cases same
  | cut opened deep =>
    obtain ⟨x, ended, ⟨t, -, same⟩ | ⟨n, spans, same⟩⟩ := shape opened
    · cases same
    · cases same
      exact .cut ended spans deep
  | array opened new shallow lengths _ ih =>
    obtain ⟨x, ended, ⟨t, -, same⟩ | ⟨n, spans, same⟩⟩ := shape opened
    · cases same
    · cases same
      obtain ⟨lengths, each⟩ := spans.forall_elements.mp ⟨lengths, ih⟩
      exact .array ended spans new shallow lengths each

theorem ReadsAs.termAt (reads : h.ReadsAs symbols path c t)
    (depth : left + path.length = maxDepth + 1) : h.termAt symbols left path c = .ok t :=
  (termAt_eq_ok depth).mpr reads.opensAs

theorem ReadsAs.of_termAt
    (counts : ∀ a d, h.get? a = some d → d.tag = .arrayHeader → 0 ≤ d.payload)
    (depth : left + path.length = maxDepth + 1) (read : h.termAt symbols left path c = .ok t) :
    h.ReadsAs symbols path c t :=
  .of_opensAs counts ((termAt_eq_ok depth).mp read)

/-- Where variable chains end on the heap and no header has a negative count, a cell whose
chain ends has exactly one reading, and that is what is read out. -/
theorem readout_reads (ends : ∀ a d, h.get? a = some d → ∃ x, h.deref d = .ok x)
    (counts : ∀ a d, h.get? a = some d → d.tag = .arrayHeader → 0 ≤ d.payload)
    (symbols : Symbols) (ended : ∃ x, h.deref c = .ok x) :
    ∃ t, h.readout symbols c = .ok t ∧ ∀ u, h.ReadsAs symbols [] c u ↔ u = t := by
  have opens (c : Cell) (ended : ∃ x, h.deref c = .ok x) :
      ∃ o, h.openCell symbols c = .ok o ∧
        ∀ a elements, o = .block a elements → ∀ e ∈ elements, ∃ x, h.deref e = .ok x := by
    obtain ⟨x, ended⟩ := ended
    rcases exists_plain_or_spans symbols counts x with ⟨t, plain⟩ | ⟨n, spans⟩
    · exact ⟨_, plain.openCell ended, by simp⟩
    · refine ⟨_, spans.openCell ended, fun a elements same e member => ?_⟩
      cases same
      obtain ⟨b, found⟩ := exists_get?_of_mem_span member
      exact ends b e found
  obtain ⟨t, read⟩ := exists_termAt opens ended (maxDepth + 1) []
  refine ⟨t, (readout_eq h symbols c).trans read, fun u => ⟨fun reads => ?_, ?_⟩⟩
  · have again : h.termAt symbols (maxDepth + 1) [] c = .ok u := reads.termAt rfl
    exact Except.ok.inj (again.symm.trans read)
  · rintro rfl
    exact .of_termAt counts rfl read

/-- The structure `f(T, T, L, 7)`, where `T` is `g(X)` and met twice, `L` is the structure
itself, and `7` is the number of no symbol. -/
def sharing : Heap := ⟨#[.header 5, .constant 0, .structRef 6, .structRef 6, .structRef 0,
  .constant 7, .header 2, .constant 1, .var 8], by decide⟩

theorem readout_reads_sharing :
    (∀ a d, sharing.get? a = some d → ∃ x, sharing.deref d = .ok x) ∧
    (∀ a d, sharing.get? a = some d → d.tag = .arrayHeader → 0 ≤ d.payload) ∧
    sharing.ReadsAs ⟨#["f", "g"]⟩ [] (.structRef 0)
      (.array [.label "f", .array [.label "g", .label "V8"], .array [.label "g", .label "V8"],
        .label "...", .label "BADSYMREF=7"]) := by
  have sound : sharing.Sound := by decide +kernel
  have counts : ∀ a ∈ List.range sharing.top, ∀ d ∈ sharing.get? a, d.tag = .arrayHeader →
      0 ≤ d.payload := by decide +kernel
  have counts (a : Nat) (d : Cell) (found : sharing.get? a = some d) :=
    counts a (List.mem_range.mpr (lt_top_of_get? found)) d found
  have ended : sharing.deref (.structRef 0) = .ok (.structRef 0) := deref_of_value (by decide)
  obtain ⟨t, read, reads⟩ :=
    readout_reads sound.ends counts ⟨#["f", "g"]⟩ ⟨_, ended⟩
  refine ⟨sound.ends, counts, (reads _).mpr ?_⟩
  have value : (sharing.termAt ⟨#["f", "g"]⟩ (maxDepth + 1) [] (.structRef 0)).toOption.any
      (fun t => decide (t = .array [.label "f", .array [.label "g", .label "V8"],
        .array [.label "g", .label "V8"], .label "...", .label "BADSYMREF=7"])) = true := by
    decide +kernel
  obtain ⟨u, again, same⟩ := exists_ok_of_any value
  rw [readout_eq, again, Except.ok.injEq] at read
  rw [← read, of_decide_eq_true same]

end HornMachine.Heap
