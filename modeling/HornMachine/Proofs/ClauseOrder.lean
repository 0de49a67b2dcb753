import HornMachine.Proofs.OwedAnswers
import Mathlib.Data.List.Perm.Basic

/-!
# The order of the clauses

A program with its rules in another order numbers the symbols otherwise and lays the
rules elsewhere. Its query still lies at the same place, and so does every copy made
for the same choice of rules. So the trees of the two queries have the same answers
but for their order, with the same names of free variables, and machines that come to
an end have answered them all.
-/
namespace HornMachine

/-! ### Codes of one sentence under two tables -/

variable {t t' : Symbols} {es : List Element}

theorem Layout.resolve_layoutOf (t t' : Symbols) (es : List Element) (name : String) (a : Nat) :
    (layoutOf t' es).resolve name a = (layoutOf t es).resolve name a := by
  simp only [resolve, anchorOf?, firstOf?, layoutOf]

theorem Slot.renamed {w : Word} {a : Nat} (sound : t.Sound) (sound' : t'.Sound)
    (plain : w.Plain t) (plain' : w.Plain t') :
    ((layoutOf t es).slotCell a (Slot.of t w)).Renamed t t'
      ((layoutOf t' es).slotCell a (Slot.of t' w)) := by
  cases w with
  | const name =>
    obtain ⟨id, known⟩ := plain
    obtain ⟨id', known'⟩ := plain'
    simp only [Slot.of, Layout.slotCell, known, known', Option.getD_some]
    exact .symbol (sound.lookup_eq_some.mp known) (sound'.lookup_eq_some.mp known')
  | number n =>
    simp only [Slot.of, Layout.slotCell]
    exact .same (by rw [Cell.tag_number]; decide)
  | var name =>
    simp only [Slot.of, Layout.slotCell]
    rw [Layout.resolve_layoutOf t t' es name a]
    exact .same (Layout.tag_resolve_ne _ name a (.inl rfl))
  | holds _ => exact plain.elim
  | lists _ => exact plain.elim

theorem Layout.cells_renamed {a : Nat} {c d : Cell} (sound : t.Sound) (sound' : t'.Sound)
    (plain : ∀ w ∈ es.flatMap contentOf, w.Plain t ∧ w.Plain t')
    (found : (layoutOf t es).cells[a]? = some c) (found' : (layoutOf t' es).cells[a]? = some d) :
    c.Renamed t t' d := by
  rcases cell_cases found with ⟨e, block, rfl⟩ | ⟨o, e, i, w, block, word, rfl, rfl⟩
  · rw [header_cell block t', Option.some.injEq] at found'
    subst found'
    exact .same (by rw [Cell.tag_header]; decide)
  · rw [word_cell block t' word, Option.some.injEq] at found'
    subst found'
    obtain ⟨known, known'⟩ := plain w (block.word_mem word)
    exact Slot.renamed sound sound' known known'

/-- The codes of a sentence under two tables correspond. -/
theorem Renders.renamed {code code' : ClauseCode} (sound : t.Sound) (sound' : t'.Sound)
    (renders : Renders t es code) (renders' : Renders t' es code') : code.Renamed t t' code' := by
  obtain rfl := renders.code
  obtain rfl := renders'.code
  refine ⟨List.forall₂_iff_get.mpr ⟨?_, fun a inside inside' => ?_⟩, ?_⟩
  · change (layoutOf t es).cells.toList.length = (layoutOf t' es).cells.toList.length
    rw [Array.length_toList, Array.length_toList, Layout.cells, Layout.cells, Array.size_mapIdx,
      Array.size_mapIdx, slots_size, slots_size]
  · have found := List.getElem?_eq_getElem inside
    have found' := List.getElem?_eq_getElem inside'
    rw [Array.getElem?_toList] at found found'
    exact Layout.cells_renamed sound sound'
      (fun w member => ⟨renders.plain w member, renders'.plain w member⟩) found found'
  · simp only [Layout.code, layoutOf]

/-! ### Machines with one query -/

theorem ClauseCode.Renamed.size {code code' : ClauseCode} (same : code.Renamed t t' code') :
    code'.size = code.size := by
  have length := same.cells.length_eq
  rw [Array.length_toList, Array.length_toList] at length
  exact length.symm

theorem ClauseCode.Renamed.sum_sizes {rules rules' : List ClauseCode}
    (same : List.Forall₂ (ClauseCode.Renamed t t') rules rules') :
    (rules'.map (·.size)).sum = (rules.map (·.size)).sum := by
  induction same with
  | nil => rfl
  | cons first _ ih =>
    rw [List.map_cons, List.map_cons, List.sum_cons, List.sum_cons, ih, first.size]

namespace Machine.LoadedFrom

variable {m m' : Machine} {settings settings' : Settings} {rules rules' : List ClauseCode}
  {query query' : ClauseCode}

/-- Queries that correspond lie in regions that correspond, above rules of one size. -/
theorem renamed (loaded : m.LoadedFrom settings (rules ++ [query]) t)
    (loaded' : m'.LoadedFrom settings' (rules' ++ [query']) t')
    (sizes : (rules'.map (·.size)).sum = (rules.map (·.size)).sum)
    (same : query.Renamed t t' query') :
    m.store.heap.Renamed t t' (rules.map (·.size)).sum m'.store.heap := by
  obtain ⟨below, size, copied⟩ := loaded.copied
  obtain ⟨below', size', copied'⟩ := loaded'.copied
  have level : below'.top = below.top := by rw [size', sizes, size]
  have none : below.Renamed t t' (rules.map (·.size)).sum below' :=
    ⟨level, fun a c d low found => absurd (Heap.lt_top_of_get? found) (by omega)⟩
  refine none.append (ClauseCode.copied_size.mp copied) (ClauseCode.copied_size.mp copied') ?_
  rw [level, List.forall₂_map_left_iff, List.forall₂_map_right_iff]
  exact same.cells.imp fun _ _ cell => cell.relocate below.top

theorem query_eq (loaded : m.LoadedFrom settings (rules ++ [query]) t)
    (loaded' : m'.LoadedFrom settings' (rules' ++ [query']) t')
    (sizes : (rules'.map (·.size)).sum = (rules.map (·.size)).sum)
    (same : query.Renamed t t' query') :
    m'.program.query.body = m.program.query.body ∧ m'.queryHead = m.queryHead := by
  rw [loaded.queryHead, loaded'.queryHead, loaded.runs.1.query, loaded'.runs.1.query]
  simp only [ClauseCode.clauseAt, ClauseCode.body, ClauseCode.head, same.goals, Codes.floor,
    sizes, and_self]

theorem yields {s fuel count : Nat} {n : Machine} {ts : List (Option Term)}
    (loaded : m.LoadedFrom settings (rules ++ [query]) t)
    (uncalled : Uncalled ⟨rules, query, t.count⟩ s) (asked : m.asks fuel count = .ok (ts, n))
    (ended : none ∈ ts) :
    Yields rules t m.queryHead rules m.program.query.body m.store.heap ts.reduceOption := by
  obtain ⟨runs, -⟩ := loaded.runs
  rw [loaded.resting] at asked
  obtain ⟨bs, answers, -, -⟩ := Program.Asked.of_asks loaded.placed loaded.stacked asked
  have owes := answers.owes runs uncalled loaded.indexed (loaded.clear uncalled) ended
  obtain ⟨xs, ys, split, tree, nothing⟩ := owes.fresh runs uncalled loaded.indexed
    (loaded.tame uncalled) fun _ => ⟨loaded.queryHead.symm, rfl⟩
  cases nothing
  rw [split, List.append_nil, ← loaded.symbols]
  exact tree

end Machine.LoadedFrom

theorem forall₂_of_common {α β γ : Type} {R : α → β → Prop} {S : α → γ → Prop} {as : List α}
    {bs : List β} {cs : List γ} (pairs : List.Forall₂ R as bs) (pairs' : List.Forall₂ S as cs) :
    List.Forall₂ (fun b c => b ∈ bs ∧ c ∈ cs ∧ ∃ a, R a b ∧ S a c) bs cs := by
  induction pairs generalizing cs with
  | nil =>
    cases pairs'
    exact .nil
  | cons related _ ih =>
    obtain _ | ⟨related', rest⟩ := pairs'
    refine .cons ⟨List.mem_cons_self .., List.mem_cons_self .., _, related, related'⟩ ?_
    exact (ih rest).imp fun _ _ ⟨left, right, common⟩ =>
      ⟨List.mem_cons_of_mem _ left, List.mem_cons_of_mem _ right, common⟩

theorem renamed_of_sentence {s : Sentence} {code code' : ClauseCode} (sound : t.Sound)
    (sound' : t'.Sound) (made : ∃ es, s.expandLists = .ok es ∧ Renders t es code)
    (made' : ∃ es, s.expandLists = .ok es ∧ Renders t' es code') : code.Renamed t t' code' := by
  obtain ⟨es, expanded, renders⟩ := made
  obtain ⟨es', expanded', renders'⟩ := made'
  obtain rfl : es = es' := Except.ok.inj (expanded.symm.trans expanded')
  exact renders.renamed sound sound' renders'

theorem split_last_pair {α β : Type} {R : α → β → Prop} {as : List α} {a : α} {bs : List β} {b : β}
    (pairs : List.Forall₂ R (as ++ [a]) (bs ++ [b])) : List.Forall₂ R as bs ∧ R a b := by
  obtain ⟨_, _, same, front, last⟩ := split_last pairs
  obtain ⟨rfl, single⟩ := List.append_inj' same rfl
  obtain rfl := List.singleton_inj.mp single
  exact ⟨front, last⟩

/-- The rules of sentences in two orders, the last sentence the same, correspond once those
of the first are put in the order of the second. -/
theorem exists_reordered {front front' : List Sentence} {final : Sentence}
    {rules rules' : List ClauseCode} {query query' : ClauseCode} (sound : t.Sound)
    (sound' : t'.Sound) (order : (front' ++ [final]).Perm (front ++ [final]))
    (rendered : List.Forall₂ (fun s code => ∃ es, s.expandLists = .ok es ∧ Renders t es code)
      (front ++ [final]) (rules ++ [query]))
    (rendered' : List.Forall₂ (fun s code => ∃ es, s.expandLists = .ok es ∧ Renders t' es code)
      (front' ++ [final]) (rules' ++ [query'])) :
    ∃ reordered, reordered.Perm rules ∧
      List.Forall₂ (Codes.Paired ⟨rules, query, t.count⟩ ⟨rules', query', t'.count⟩ t t')
        reordered rules' ∧ query.Renamed t t' query' := by
  obtain ⟨pairs, made⟩ := split_last_pair rendered
  obtain ⟨pairs', made'⟩ := split_last_pair rendered'
  obtain ⟨reordered, pairs, perm⟩ :=
    List.perm_comp_forall₂ ((List.perm_append_right_iff _).mp order) pairs
  refine ⟨reordered, perm, (forall₂_of_common pairs pairs').imp ?_,
    renamed_of_sentence sound sound' made made'⟩
  rintro code code' ⟨rule, rule', s, made, made'⟩
  exact ⟨perm.mem_iff.mp rule, rule', renamed_of_sentence sound sound' made made'⟩

theorem queryUncalled_of_perm {ss ss' : List Sentence} (order : ss'.Perm ss)
    (last : ss'.getLast? = ss.getLast?) : queryUncalled ss' = queryUncalled ss := by
  unfold queryUncalled
  rw [last]
  split
  · exact order.all_eq
  · rfl

/-- With its clauses in another order, the query last, a program has the same answers
once it has come to an end, each as often. Even the names of free variables are the
same. -/
theorem Machine.asks_perm {settings settings' : Settings} {text : String}
    {ss ss' : List Sentence} {m m' n n' : Machine} {fuel fuel' count count' : Nat}
    {ts ts' : List (Option Term)} (read : readProgram text = .ok ss)
    (uncalled : queryUncalled ss = true) (order : ss'.Perm ss)
    (last : ss'.getLast? = ss.getLast?)
    (e : ofText settings text = (.ok (.ok m) : Except Halt (Except LoadError Machine)))
    (e' : ofSentences settings' ss' = (.ok (.ok m') : Except Halt (Except LoadError Machine)))
    (asked : m.asks fuel count = .ok (ts, n)) (asked' : m'.asks fuel' count' = .ok (ts', n'))
    (ended : none ∈ ts) (ended' : none ∈ ts') : ts'.reduceOption.Perm ts.reduceOption := by
  have readable : ∀ s ∈ ss', s.Readable := fun s member =>
    readable_of_readProgram read s (order.mem_iff.mp member)
  have uncalled' := (queryUncalled_of_perm order last).trans uncalled
  obtain ⟨rules, query, t, s, -, rendered, loaded, clear⟩ := exists_uncalled read uncalled e
  obtain ⟨codes', t', -, rendered', loaded'⟩ := LoadedFrom.of_ofSentences readable e'
  obtain ⟨rules', query', s', rfl, clear'⟩ :=
    HornMachine.exists_uncalled uncalled' loaded'.sound loaded'.small rendered'
  obtain ⟨front, final, -, -, -, rfl, -, -⟩ := of_queryUncalled uncalled
  obtain ⟨front', rfl⟩ := List.getLast?_eq_some_iff.mp (last.trans List.getLast?_concat)
  obtain ⟨reordered, perm, paired, queries⟩ :=
    exists_reordered loaded.sound loaded'.sound order rendered rendered'
  have sizes : (rules'.map (·.size)).sum = (rules.map (·.size)).sum :=
    (ClauseCode.Renamed.sum_sizes (paired.imp fun _ _ pair => pair.same)).trans
      (perm.map _).sum_nat
  have twins : Codes.Twins ⟨rules, query, t.count⟩ ⟨rules', query', t'.count⟩ t t' s s' :=
    ⟨loaded.sound, loaded'.sound, clear, clear', loaded.runs.1.usable, loaded'.runs.1.usable, sizes⟩
  obtain ⟨goals, heads⟩ := loaded.query_eq loaded' sizes queries
  have term := loaded.head_term
  have tame' := loaded'.tame clear'
  have tree' := loaded'.yields clear' asked' ended'
  rw [goals] at tame'
  rw [goals, heads] at tree'
  rw [← loaded.queryHead] at term
  obtain ⟨xs, tree, answers⟩ := (loaded.yields clear asked ended).perm perm.symm perm.symm
  have tree := tree.renamed twins paired paired (loaded.tame clear) tame' term loaded.queryHead_tag
    (loaded.renamed loaded' sizes queries)
  rw [tree'.unique tree]
  exact answers

/-- With two facts the other way round the answers come the other way round. -/
theorem Machine.asks_perm_facts :
    ∃ (ss ss' : List Sentence) (m m' n n' : Machine) (ts ts' : List (Option Term)),
      readProgram "p a .\np Y .\ngo X if p X ." = .ok ss ∧
      readProgram "p Y .\np a .\ngo X if p X ." = .ok ss' ∧
      ofText {} "p a .\np Y .\ngo X if p X ." =
        (.ok (.ok m) : Except Halt (Except LoadError Machine)) ∧
      ofSentences {} ss' = (.ok (.ok m') : Except Halt (Except LoadError Machine)) ∧
      m.asks 9 3 = .ok (ts, n) ∧ m'.asks 9 3 = .ok (ts', n') ∧ ts ≠ ts' ∧
      ts'.reduceOption.Perm ts.reduceOption := by
  have loads : (ofText {} "p a .\np Y .\ngo X if p X ." :
      Except Halt (Except LoadError Machine)).toOption.any (fun r =>
        r.toOption.any fun m => (m.asks 9 3).toOption.any fun r =>
          decide (none ∈ r.1 ∧ r.1[0]? = some (some (.array [.label "go", .label "a"])))) = true := by
    decide +kernel
  have loads' : (ofText {} "p Y .\np a .\ngo X if p X ." :
      Except Halt (Except LoadError Machine)).toOption.any (fun r =>
        r.toOption.any fun m => (m.asks 9 3).toOption.any fun r =>
          decide (none ∈ r.1 ∧ r.1[1]? = some (some (.array [.label "go", .label "a"])) ∧
            r.1[0]? ≠ r.1[1]?)) = true := by
    decide +kernel
  have reads : (readProgram "p a .\np Y .\ngo X if p X .").toOption.any (fun ss =>
      (readProgram "p Y .\np a .\ngo X if p X .").toOption.any fun ss' =>
        queryUncalled ss && decide (ss'.Perm ss ∧ ss'.getLast? = ss.getLast?)) = true := by
    decide +kernel
  obtain ⟨m, loaded, asks⟩ := exists_loaded loads
  obtain ⟨⟨ts, n⟩, asked, checked⟩ := exists_ok_of_any asks
  obtain ⟨m', loaded', asks'⟩ := exists_loaded loads'
  obtain ⟨⟨ts', n'⟩, asked', checked'⟩ := exists_ok_of_any asks'
  obtain ⟨ss, read, reads⟩ := exists_ok_of_any reads
  obtain ⟨ss', read', checks⟩ := exists_ok_of_any reads
  rw [Bool.and_eq_true] at checks
  obtain ⟨uncalled, orders⟩ := checks
  obtain ⟨order, last⟩ := of_decide_eq_true orders
  obtain ⟨ended, first⟩ := of_decide_eq_true checked
  obtain ⟨ended', second, other⟩ := of_decide_eq_true checked'
  rw [ofText, read'] at loaded'
  refine ⟨ss, ss', m, m', n, n', ts, ts', read, read', loaded, loaded', asked, asked', ?_,
    asks_perm read uncalled order last loaded loaded' asked asked' ended ended'⟩
  rintro rfl
  exact other (first.trans second.symm)

end HornMachine
