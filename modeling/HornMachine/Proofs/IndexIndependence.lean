import HornMachine.Proofs.UncalledSearch

/-!
# Answers do not depend on the index

Two machines loaded from one text differ in their keys and their index only. They
agree on the live clauses of every branch when they cut their keys at the same
positions, and also when the query is not called: then a clause is live exactly
when the head of its whole copy unifies, which no setting changes. So they answer
the same, term for term, and end with stacks and heaps of the same size.

The condition is needed. The goals of the query are resolved in its template, so
a query that is called is copied with the bindings made so far. References of
such a copy can lead above the heap, and a key read there changes as the heap
grows.
-/
namespace HornMachine

namespace Machine.LoadedFrom

variable {m m' : Machine} {settings settings' : Settings} {codes : List ClauseCode} {t : Symbols}

theorem store_eq (loaded : m.LoadedFrom settings codes t)
    (loaded' : m'.LoadedFrom settings' codes t) : m'.store = m.store := by
  have heaps : m'.store.heap = m.store.heap :=
    Heap.eq_of_toList (loaded'.image.trans loaded.image.symm)
  have trails : m'.store.trail = m.store.trail := loaded'.trail.trans loaded.trail.symm
  cases hm : m.store
  cases hm' : m'.store
  rw [hm, hm'] at heaps trails
  cases heaps
  cases trails
  rfl

theorem size_eq (loaded : m.LoadedFrom settings codes t) :
    m.program.clauses.size = codes.length := by
  rw [← Array.length_toList, loaded.clauses, length_clausesFrom]

end Machine.LoadedFrom

namespace Machine.LoadedFrom

variable {m m' : Machine} {settings settings' : Settings} {codes rules : List ClauseCode}
  {query : ClauseCode} {t : Symbols}

theorem exists_last (loaded : m.LoadedFrom settings codes t) :
    ∃ rules query, codes = rules ++ [query] := by
  rcases List.eq_nil_or_concat codes with rfl | ⟨rules, query, rfl⟩
  · have list : m.program.clauses.toList = [] := loaded.clauses
    have last := loaded.query
    rw [Array.toList_eq_nil_iff.mp list] at last
    cases last
  · exact ⟨rules, query, by rw [List.concat_eq_append]⟩

/-- Programs loaded from the same codes differ in their keys at most. -/
theorem alike (loaded : m.LoadedFrom settings codes t)
    (loaded' : m'.LoadedFrom settings' codes t) : m.program.Alike m'.program := by
  refine ⟨loaded.size_eq.trans loaded'.size_eq.symm, ?_⟩
  intro id c d found found'
  rw [← Array.getElem?_toList, loaded.clauses, getElem?_clausesFrom] at found
  rw [← Array.getElem?_toList, loaded'.clauses, getElem?_clausesFrom] at found'
  cases code : codes[id]? with
  | none =>
    rw [code] at found
    cases found
  | some code' =>
    rw [code, Option.map_some, Option.some.injEq] at found found'
    subst found found'
    exact ⟨_, rfl⟩

theorem clauses_eq (loaded : m.LoadedFrom settings codes t)
    (loaded' : m'.LoadedFrom settings' codes t) (same : settings.positions = settings'.positions) :
    m'.program.clauses = m.program.clauses := by
  apply Array.ext'
  rw [loaded.clauses, loaded'.clauses, same]

theorem queryHead_eq (loaded : m.LoadedFrom settings (rules ++ [query]) t)
    (loaded' : m'.LoadedFrom settings' (rules ++ [query]) t) : m'.queryHead = m.queryHead := by
  rw [loaded.queryHead, loaded'.queryHead, loaded.runs.1.query, loaded'.runs.1.query]
  rfl

theorem sameLive_of_positions (loaded : m.LoadedFrom settings codes t)
    (loaded' : m'.LoadedFrom settings' codes t) (same : settings.positions = settings'.positions)
    (b : Branch) : Program.SameLive m.program m'.program b := by
  intro goal rest keys keys' _ exact exact' id
  rw [loaded'.configured, ← same, ← loaded.configured, exact, Except.ok.injEq] at exact'
  subst exact'
  unfold Program.Live
  rw [loaded.clauses_eq loaded' same]

theorem agree_start (loaded : m.LoadedFrom settings (rules ++ [query]) t)
    (loaded' : m'.LoadedFrom settings' (rules ++ [query]) t)
    (same : Program.SameLive m.program m'.program m.start) :
    Program.Agree m.program m'.program m.start m'.start := by
  have fresh : Program.Agree m.program m'.program m.start ⟨.fresh m.program.query.head
      m.program.staticTop m.program.query.body 0 m'.program.clauses.size, m.store⟩ :=
    Program.SameLive.fresh (loaded.alike loaded') loaded.indexed loaded'.indexed same
  have start : m'.start = ⟨.fresh m.program.query.head m.program.staticTop
      m.program.query.body 0 m'.program.clauses.size, m.store⟩ := by
    rw [Machine.start, loaded.store_eq loaded', loaded.static, loaded'.static,
      loaded.store_eq loaded', loaded.runs.1.query, loaded'.runs.1.query]
    rfl
  rw [start]
  exact fresh

end Machine.LoadedFrom

/-- Machines loaded from one text answer alike, whatever index they use. -/
theorem Machine.asks_eq_of_settings {settings settings' : Settings} {text : String}
    {ss : List Sentence} {m m' n n' : Machine} {fuel fuel' count : Nat}
    {ts ts' : List (Option Term)} (read : readProgram text = .ok ss)
    (condition : queryUncalled ss = true ∨ settings.positions = settings'.positions)
    (e : ofText settings text = (.ok (.ok m) : Except Halt (Except LoadError Machine)))
    (e' : ofText settings' text = (.ok (.ok m') : Except Halt (Except LoadError Machine)))
    (asked : m.asks fuel count = .ok (ts, n)) (asked' : m'.asks fuel' count = .ok (ts', n')) :
    ts' = ts ∧ n'.depth = n.depth ∧ n'.heap.top = n.heap.top := by
  obtain ⟨ss₁, codes, t, read₁, linked, rendered, loaded⟩ := LoadedFrom.of_ofText e
  obtain ⟨ss₂, codes', t', read₂, linked', -, loaded'⟩ := LoadedFrom.of_ofText e'
  obtain rfl : ss = ss₁ := Except.ok.inj (read.symm.trans read₁)
  obtain rfl : ss = ss₂ := Except.ok.inj (read.symm.trans read₂)
  obtain ⟨rfl, rfl⟩ := Prod.mk.inj (Except.ok.inj (linked.symm.trans linked'))
  obtain ⟨rules, query, rfl⟩ := loaded.exists_last
  have stores := loaded.store_eq loaded'
  have heads := loaded.queryHead_eq loaded'
  obtain ⟨I, invariant, start⟩ : ∃ I, Program.Invariant m.program m'.program m.queryHead I ∧
      ∀ b ∈ [m.start], I b := by
    rcases condition with uncalled | same
    · obtain ⟨rules', query', s, split, clear⟩ :=
        HornMachine.exists_uncalled uncalled loaded.sound loaded.small rendered
      obtain ⟨rfl, last⟩ := List.append_inj' split rfl
      obtain rfl := List.singleton_inj.mp last
      have runs := loaded.runs.1
      have runs' := loaded'.runs.1
      exact ⟨_, ⟨fun clear' some e => clear'.turn runs clear some e,
        fun clear' => clear'.sameLive runs runs' clear⟩, loaded.clear clear⟩
    · exact ⟨fun _ => True, ⟨fun _ _ _ => ⟨trivial, fun _ _ => trivial⟩,
        fun {b} _ => loaded.sameLive_of_positions loaded' same b⟩, fun _ _ => trivial⟩
  have asked := (congrArg (Machine.asks · fuel count) loaded.resting).symm.trans asked
  have asked' := (congrArg (Machine.asks · fuel' count) loaded'.resting).symm.trans asked'
  have stacked' := loaded'.stacked
  rw [stores, heads] at asked'
  rw [stores] at stacked'
  obtain ⟨bs, answers, length, rfl⟩ := Program.Asked.of_asks loaded.placed loaded.stacked asked
  obtain ⟨cs, answers', length', rfl⟩ := Program.Asked.of_asks loaded'.placed stacked' asked'
  have agree := loaded.agree_start loaded' (invariant.live (start _ (List.mem_singleton_self _)))
  obtain ⟨same, final⟩ := Program.Asked.agree invariant (loaded.alike loaded')
    (loaded'.symbols.trans loaded.symbols.symm) (by simp [loaded.size_eq]) loaded.placed
    loaded'.placed loaded.indexed loaded'.indexed loaded.stacked stacked' start
    (.cons agree .nil) answers answers' (length'.trans length.symm)
  refine ⟨same, ?_, ?_⟩
  · simp only [Machine.depth, Program.resting, List.length_map]
    exact final.length_eq.symm
  · simp only [Machine.heap, Program.resting, Program.current_agree final]

/-- With an index on one position and with none the same is answered. -/
theorem Machine.asks_eq_of_settings_facts :
    ∃ (m m' n n' : Machine) (ts : List (Option Term)),
      ofText ⟨0, 1, 0⟩ "p a .\np b .\ngo X if p X ." =
        (.ok (.ok m) : Except Halt (Except LoadError Machine)) ∧
      ofText {} "p a .\np b .\ngo X if p X ." =
        (.ok (.ok m') : Except Halt (Except LoadError Machine)) ∧
      m.asks 9 3 = .ok (ts, n) ∧ m'.asks 20 3 = .ok (ts, n') ∧ n'.depth = n.depth ∧
      n'.heap.top = n.heap.top := by
  have loads : (ofText ⟨0, 1, 0⟩ "p a .\np b .\ngo X if p X ." :
      Except Halt (Except LoadError Machine)).toOption.any (fun r =>
        r.toOption.any fun m => (m.asks 9 3).toOption.any fun _ => true) = true := by
    decide +kernel
  have loads' : (ofText {} "p a .\np b .\ngo X if p X ." :
      Except Halt (Except LoadError Machine)).toOption.any (fun r =>
        r.toOption.any fun m => (m.asks 20 3).toOption.any fun _ => true) = true := by
    decide +kernel
  have reads : (readProgram "p a .\np b .\ngo X if p X .").toOption.any queryUncalled = true := by
    decide +kernel
  obtain ⟨m, loaded, asks⟩ := exists_loaded loads
  obtain ⟨m', loaded', asks'⟩ := exists_loaded loads'
  obtain ⟨⟨ts, n⟩, asked, -⟩ := exists_ok_of_any asks
  obtain ⟨⟨ts', n'⟩, asked', -⟩ := exists_ok_of_any asks'
  obtain ⟨ss, read, uncalled⟩ := exists_ok_of_any reads
  obtain ⟨rfl, depth, top⟩ :=
    asks_eq_of_settings read (.inl uncalled) loaded loaded' asked asked'
  exact ⟨m, m', n, n', ts', loaded, loaded', asked, asked', depth, top⟩

/-- A program that calls its query after the variables of the query were bound. -/
def selfCalling : String := "p a R X Z Y if W holds 1 V 1 and F holds and U holds X Y and s U Z R .
p a R X Z Y if F holds and X holds and Z holds and Y holds and go R .
s A B a if A holds V V and B holds .
s A B b .
go R if p a R X Z Y ."

/-- When the query is called, keys of two and of three positions may lead to
different answers: the query is copied from a template that was bound before. -/
theorem Machine.asks_ne_of_settings :
    ∃ (m m' n n' : Machine) (ts ts' : List (Option Term)),
      ofText ⟨0, 2, 0⟩ selfCalling = (.ok (.ok m) : Except Halt (Except LoadError Machine)) ∧
      ofText ⟨0, 3, 0⟩ selfCalling = (.ok (.ok m') : Except Halt (Except LoadError Machine)) ∧
      m.asks 25 3 = .ok (ts, n) ∧ m'.asks 25 3 = .ok (ts', n') ∧ ts ≠ ts' := by
  have loads : ((ofText ⟨0, 2, 0⟩ selfCalling :
      Except Halt (Except LoadError Machine)).toOption.any (fun r =>
        r.toOption.any fun m => (m.asks 25 3).toOption.any fun r =>
          decide (r.1[2]? = some (some (.array [.label "go", .label "a"])))) &&
      (ofText ⟨0, 3, 0⟩ selfCalling :
      Except Halt (Except LoadError Machine)).toOption.any (fun r =>
        r.toOption.any fun m => (m.asks 25 3).toOption.any fun r =>
          decide (r.1[2]? = some (some (.array [.label "go", .label "b"]))))) = true := by
    decide +kernel
  obtain ⟨two, three⟩ := Bool.and_eq_true_iff.mp loads
  obtain ⟨m, loaded, asks⟩ := exists_loaded two
  obtain ⟨m', loaded', asks'⟩ := exists_loaded three
  obtain ⟨⟨ts, n⟩, asked, third⟩ := exists_ok_of_any asks
  obtain ⟨⟨ts', n'⟩, asked', third'⟩ := exists_ok_of_any asks'
  refine ⟨m, m', n, n', ts, ts', loaded, loaded', asked, asked', fun same => ?_⟩
  have both := of_decide_eq_true third'
  rw [← same, of_decide_eq_true third] at both
  simp at both

end HornMachine
