import HornMachine.Proofs.Branches

/-!
# Candidates from the index

A position of the index is, for every key, the ascending list of the clauses with
that key, beside the list of those with a variable there. Merging the two gives
the clauses that admit the key, in order of declaration, and the remaining
positions thin this list out; binary search finds a clause in one of their lists
exactly when it is there, since they ascend. So the index lists, in this order,
every clause whose keys admit those of the goal.
-/
namespace HornMachine

theorem index_lt_of_ascending {ids : Array Nat} (ascending : ids.toList.Pairwise (· < ·))
    {i j x y : Nat} (atI : ids[i]? = some x) (atJ : ids[j]? = some y) (less : x < y) : i < j := by
  rw [← Array.getElem?_toList] at atI atJ
  obtain ⟨insideI, rfl⟩ := List.getElem?_eq_some_iff.mp atI
  obtain ⟨insideJ, rfl⟩ := List.getElem?_eq_some_iff.mp atJ
  by_contra above
  rcases Nat.eq_or_lt_of_le (Nat.le_of_not_lt above) with rfl | above
  · exact Nat.lt_irrefl _ less
  · have := List.pairwise_iff_getElem.mp ascending j i insideJ insideI above
    omega

theorem binSearchAux_iff {ids : Array Nat} (ascending : ids.toList.Pairwise (· < ·)) (id : Nat)
    (lo : Fin (ids.size + 1)) (hi : Fin ids.size) (le : lo.1 ≤ hi.1) :
    Array.binSearchAux (fun a b => decide (a < b)) Option.isSome ids id lo hi le = true ↔
      ∃ i, lo.1 ≤ i ∧ i ≤ hi.1 ∧ ids[i]? = some id := by
  fun_induction Array.binSearchAux with
  | case1 lo hi _ m a below more _ ih =>
    have middle : ids[m]? = some a := Array.getElem?_eq_getElem (by omega)
    refine ih.trans (exists_congr fun i => ⟨fun ⟨left, right, found⟩ => ?_,
      fun ⟨_, right, found⟩ => ⟨?_, right, found⟩⟩)
    · exact ⟨by simp only at left; omega, right, found⟩
    · exact index_lt_of_ascending ascending middle found (of_decide_eq_true below)
  | case2 lo hi _ m a below last _ =>
    have middle : ids[m]? = some a := Array.getElem?_eq_getElem (by omega)
    refine iff_of_false Bool.false_ne_true fun ⟨i, _, right, found⟩ => ?_
    have := index_lt_of_ascending ascending middle found (of_decide_eq_true below)
    omega
  | case3 lo hi _ m a _ above last _ =>
    have middle : ids[m]? = some a := Array.getElem?_eq_getElem (by omega)
    refine iff_of_false Bool.false_ne_true fun ⟨i, left, _, found⟩ => ?_
    have := index_lt_of_ascending ascending found middle (of_decide_eq_true above)
    omega
  | case4 lo hi _ m a _ above more _ ih =>
    have middle : ids[m]? = some a := Array.getElem?_eq_getElem (by omega)
    refine ih.trans (exists_congr fun i => ⟨fun ⟨left, right, found⟩ => ?_,
      fun ⟨left, _, found⟩ => ⟨left, ?_, found⟩⟩)
    · exact ⟨left, by simp only at right; omega, found⟩
    · have := index_lt_of_ascending ascending found middle (of_decide_eq_true above)
      simp only
      omega
  | case5 lo hi _ m a notBelow notAbove _ =>
    have middle : ids[m]? = some a := Array.getElem?_eq_getElem (by omega)
    rw [decide_eq_true_eq] at notBelow notAbove
    obtain rfl : a = id := by omega
    exact iff_of_true rfl ⟨m, by omega, by omega, middle⟩

/-- In ascending numbers, binary search finds exactly what is there. -/
theorem binSearchContains_iff {ids : Array Nat} (ascending : ids.toList.Pairwise (· < ·))
    (id : Nat) : ids.binSearchContains id (· < ·) = true ↔ id ∈ ids.toList := by
  rw [List.mem_iff_getElem?]
  simp only [Array.getElem?_toList]
  unfold Array.binSearchContains
  split
  · simp only [ite_self, Nat.zero_le, ↓reduceDIte]
    refine (binSearchAux_iff ascending id _ _ _).trans (exists_congr fun i => ?_)
    refine ⟨fun both => both.2.2, fun found => ⟨Nat.zero_le i, ?_, found⟩⟩
    have := (Array.getElem?_eq_some_iff.mp found).choose
    simp only
    omega
  · next empty =>
    refine iff_of_false Bool.false_ne_true fun ⟨i, found⟩ => empty ?_
    have := (Array.getElem?_eq_some_iff.mp found).choose
    omega

theorem mergeAscending_cons_left {a : Nat} {as bs : List Nat} (least : ∀ b ∈ bs, a < b) :
    mergeAscending (a :: as) bs = a :: mergeAscending as bs := by
  cases bs with
  | nil => cases as <;> simp [mergeAscending]
  | cons b bs => rw [mergeAscending, if_pos (least b (List.mem_cons_self ..))]

theorem mergeAscending_cons_right {b : Nat} {as bs : List Nat} (least : ∀ a ∈ as, b < a) :
    mergeAscending as (b :: bs) = b :: mergeAscending as bs := by
  cases as with
  | nil => simp [mergeAscending]
  | cons a as =>
    have above := least a (List.mem_cons_self ..)
    rw [mergeAscending, if_neg (by omega)]

/-- Merging two disjoint selections of an ascending list selects their union. -/
theorem mergeAscending_filter {p q : Nat → Bool} {ids : List Nat}
    (ascending : ids.Pairwise (· < ·)) (disjoint : ∀ id, p id = true → q id = false) :
    mergeAscending (ids.filter p) (ids.filter q) = ids.filter fun id => p id || q id := by
  induction ids with
  | nil => simp [mergeAscending]
  | cons id ids ih =>
    obtain ⟨least, ascending⟩ := List.pairwise_cons.mp ascending
    have above : ∀ (s : Nat → Bool), ∀ other ∈ ids.filter s, id < other :=
      fun s other member => least other (List.mem_filter.mp member).1
    cases hp : p id with
    | true =>
      simp only [List.filter_cons, hp, disjoint id hp, Bool.true_or, ↓reduceIte,
        Bool.false_eq_true]
      rw [mergeAscending_cons_left (above q), ih ascending]
    | false =>
      cases hq : q id with
      | true =>
        simp only [List.filter_cons, hp, hq, Bool.or_true, ↓reduceIte, Bool.false_eq_true]
        rw [mergeAscending_cons_right (above p), ih ascending]
      | false =>
        simp only [List.filter_cons, hp, hq, Bool.or_self, ↓reduceIte, Bool.false_eq_true]
        exact ih ascending

namespace PositionIndex

theorem ofKeys_concat (keys : List (Key × Nat)) (entry : Key × Nat) :
    ofKeys (keys ++ [entry]) = (ofKeys keys).insert entry.1 entry.2 := by
  rw [ofKeys, List.foldl_append]
  rfl

theorem wild_ofKeys (keys : List (Key × Nat)) :
    (ofKeys keys).wild.toList = (keys.filter (·.1.isAny)).map (·.2) := by
  induction keys using List.reverseRecOn with
  | nil => rfl
  | append_singleton keys entry ih =>
    rw [ofKeys_concat, insert, List.filter_append, List.map_append, ← ih, List.filter_singleton]
    split
    · next wild => rw [wild, cond_true, Array.toList_push, List.map_singleton]
    · next known =>
      rw [Bool.eq_false_of_not_eq_true known, cond_false, List.map_nil, List.append_nil]

theorem bucket_ofKeys (keys : List (Key × Nat)) {key : Key} (known : key.isAny = false) :
    ((ofKeys keys).bucket key).toList = (keys.filter (·.1 = key)).map (·.2) := by
  induction keys using List.reverseRecOn with
  | nil =>
    have empty : (ofKeys []).bucket key = #[] := Std.TreeMap.getD_emptyc
    rw [empty]
    rfl
  | append_singleton keys entry ih =>
    rw [ofKeys_concat, insert, List.filter_append, List.map_append, ← ih, List.filter_singleton]
    split
    · next wild =>
      have other : entry.1 ≠ key := by
        rintro rfl
        simp [known] at wild
      rw [decide_eq_false other, cond_false, List.map_nil, List.append_nil]
      rfl
    · have order : compare entry.1 key = .eq ↔ entry.1 = key :=
        Std.LawfulEqCmp.compare_eq_iff_eq
      rw [bucket, Std.TreeMap.getD_insert]
      by_cases same : entry.1 = key
      · subst same
        simp only [order, decide_true, ↓reduceIte, cond_true, List.map_singleton,
          Array.toList_push]
      · simp only [order, same, decide_false, ↓reduceIte, cond_false, List.map_nil,
          List.append_nil]
        rfl

end PositionIndex

namespace ClauseIndex

/-- The key of the clause `id` at the position `i`. -/
def keyOf (keys : List Keys) (i id : Nat) : Key := ((keys[id]?).bind (·[i]?)).getD .any

/-- The index of one position. -/
def position (keys : List Keys) (i : Nat) : PositionIndex :=
  .ofKeys (keys.zipIdx.map fun (k, id) => (k[i]?.getD .any, id))

theorem entries_eq (keys : List Keys) (i : Nat) :
    (keys.zipIdx.map fun (k, id) => (k[i]?.getD .any, id)) =
      (List.range keys.length).map fun id => (keyOf keys i id, id) := by
  apply List.ext_getElem
  · simp
  · intro id _ inside
    have bound : id < keys.length := by simpa using inside
    simp [keyOf, List.getElem?_eq_getElem bound]

theorem wild_position (keys : List Keys) (i : Nat) :
    (position keys i).wild.toList =
      (List.range keys.length).filter fun id => (keyOf keys i id).isAny := by
  rw [position, entries_eq, PositionIndex.wild_ofKeys, List.filter_map, List.map_map]
  exact List.map_id _

theorem bucket_position (keys : List Keys) (i : Nat) {key : Key} (known : key.isAny = false) :
    ((position keys i).bucket key).toList =
      (List.range keys.length).filter fun id => keyOf keys i id = key := by
  rw [position, entries_eq, PositionIndex.bucket_ofKeys _ known, List.filter_map, List.map_map]
  exact List.map_id _

/-- Merging bucket and variables of a position gives the clauses that admit the
key there. -/
theorem merge_position (keys : List Keys) (i : Nat) {key : Key} (known : key.isAny = false) :
    mergeAscending ((position keys i).bucket key).toList (position keys i).wild.toList =
      (List.range keys.length).filter fun id => key.admits (keyOf keys i id) := by
  rw [bucket_position keys i known, wild_position, mergeAscending_filter List.pairwise_lt_range]
  · refine List.filter_congr fun id _ => ?_
    rw [Key.admits, known, Bool.false_or, Bool.or_comm]
    simp only [eq_comm]
  · intro id same
    rw [decide_eq_true_eq] at same
    rw [same, known]

theorem admits_position (keys : List Keys) (i : Nat) {key : Key} (known : key.isAny = false)
    {id : Nat} (inside : id < keys.length) :
    (position keys i).admits key id = key.admits (keyOf keys i id) := by
  have bucket : ((position keys i).bucket key).toList.Pairwise (· < ·) := by
    rw [bucket_position keys i known]
    exact List.pairwise_lt_range.filter _
  have wild : (position keys i).wild.toList.Pairwise (· < ·) := by
    rw [wild_position]
    exact List.pairwise_lt_range.filter _
  rw [PositionIndex.admits, Bool.eq_iff_iff, Bool.or_eq_true, binSearchContains_iff bucket,
    binSearchContains_iff wild, bucket_position keys i known, wild_position, List.mem_filter,
    List.mem_filter, List.mem_range, decide_eq_true_eq]
  simp only [inside, true_and, Key.admits, known, Bool.false_or, Bool.or_eq_true,
    decide_eq_true_eq]
  rw [or_comm, @eq_comm _ key]

theorem mem_constraints {keys : List Keys} {positions : Nat} {goal : Keys}
    {q : PositionIndex} {key : Key} : (q, key) ∈ (build keys positions).constraints goal ↔
      key.isAny = false ∧ ∃ i : Fin maxPositions, i < Settings.clampPositions positions ∧
        q = position keys i ∧ key = goal.get i := by
  rw [constraints, List.mem_filter, and_comm]
  refine and_congr (by simp) ?_
  constructor
  · intro member
    obtain ⟨i, inside, pair⟩ := List.mem_iff_getElem.mp member
    simp only [build, List.length_zip, List.length_map, List.length_range,
      Vector.length_toList] at inside
    simp only [build, List.getElem_zip, List.getElem_map, List.getElem_range,
      Prod.mk.injEq] at pair
    refine ⟨⟨i, by omega⟩, by dsimp only; omega, pair.1.symm, ?_⟩
    rw [← pair.2]
    simp [Vector.get]
  · rintro ⟨i, inside, rfl, rfl⟩
    refine List.mem_iff_getElem?.mpr ⟨i, ?_⟩
    simp [build, inside, position, Vector.get]

theorem candidates_eq_filter (keys : List Keys) (positions : Nat) (goal : Keys) :
    (build keys positions).candidates goal = (List.range keys.length).filter fun id =>
      ((build keys positions).constraints goal).all fun c => c.1.admits c.2 id := by
  unfold candidates
  cases which : (build keys positions).constraints goal with
  | nil => exact (List.filter_eq_self.mpr fun _ _ => rfl).symm
  | cons first rest =>
    obtain ⟨q, key⟩ := first
    obtain ⟨known, i, -, rfl, -⟩ := mem_constraints.mp (which ▸ List.mem_cons_self)
    dsimp only
    rw [merge_position keys i known, List.filter_filter]
    refine List.filter_congr fun id member => ?_
    rw [List.all_cons, admits_position keys i known (List.mem_range.mp member), Bool.and_comm]

theorem keyOf_eq {keys : List Keys} {id : Nat} {k : Keys} (found : keys[id]? = some k)
    (i : Fin maxPositions) : keyOf keys i id = k.get i := by
  rw [keyOf, found, Option.bind_some, Vector.getElem?_eq_getElem i.2]
  rfl

/-- The candidates are the clauses whose keys admit the goal's at the indexed positions. -/
theorem mem_candidates {keys : List Keys} {positions : Nat} {goal : Keys} {id : Nat} :
    id ∈ (build keys positions).candidates goal ↔ ∃ k, keys[id]? = some k ∧
      ∀ i : Fin maxPositions, i < Settings.clampPositions positions →
        (goal.get i).admits (k.get i) = true := by
  rw [candidates_eq_filter, List.mem_filter, List.mem_range, List.all_eq_true]
  constructor
  · intro ⟨inside, all⟩
    refine ⟨keys[id], List.getElem?_eq_getElem inside, fun i indexed => ?_⟩
    cases known : (goal.get i).isAny with
    | true => simp [Key.admits, known]
    | false =>
      have admitted := all (position keys i, goal.get i)
        (mem_constraints.mpr ⟨known, i, indexed, rfl, rfl⟩)
      rwa [admits_position keys i known inside,
        keyOf_eq (List.getElem?_eq_getElem inside)] at admitted
  · intro ⟨k, found, admits⟩
    have inside := (List.getElem?_eq_some_iff.mp found).choose
    refine ⟨inside, ?_⟩
    rintro ⟨q, key⟩ member
    obtain ⟨known, i, indexed, rfl, rfl⟩ := mem_constraints.mp member
    rw [admits_position _ i known inside, keyOf_eq found]
    exact admits i indexed

theorem mem_candidates_of_admits {keys : List Keys} {positions : Nat} {goal k : Keys} {id : Nat}
    (found : keys[id]? = some k) (admits : goal.admits k = true) :
    id ∈ (build keys positions).candidates goal := by
  rw [Keys.admits, decide_eq_true_eq] at admits
  exact mem_candidates.mpr ⟨k, found, fun i _ => admits i⟩

theorem pairwise_candidates (keys : List Keys) (positions : Nat) (goal : Keys) :
    ((build keys positions).candidates goal).Pairwise (· < ·) := by
  rw [candidates_eq_filter]
  exact List.pairwise_lt_range.filter _

/-- The candidates are, in ascending order and without repetition, exactly the clauses
whose key at every indexed position is that of the goal, unless one of the two is the
wildcard. So they include every clause whose keys admit those of the goal, and are just
these where no keys are left at the other positions. -/
theorem candidates_exactly (keys : List Keys) (positions : Nat) (goal : Keys) :
    ((build keys positions).candidates goal).Pairwise (· < ·) ∧
    (∀ id, id ∈ (build keys positions).candidates goal ↔ ∃ k, keys[id]? = some k ∧
      ∀ i : Fin maxPositions, i < Settings.clampPositions positions →
        goal.get i = .any ∨ k.get i = .any ∨ goal.get i = k.get i) ∧
    (∀ id k, keys[id]? = some k → goal.admits k = true →
      id ∈ (build keys positions).candidates goal) ∧
    ((∀ i : Fin maxPositions, Settings.clampPositions positions ≤ i →
        goal.get i = .any ∨ ∀ k ∈ keys, k.get i = .any) →
      ∀ id, id ∈ (build keys positions).candidates goal ↔
        ∃ k, keys[id]? = some k ∧ goal.admits k = true) := by
  refine ⟨pairwise_candidates keys positions goal, fun id => ?_,
    fun id k found admits => mem_candidates_of_admits found admits, fun wild id => ?_⟩
  · simp only [mem_candidates, Key.admits, Key.isAny, Bool.or_eq_true, decide_eq_true_eq, or_assoc]
  · rw [mem_candidates]
    refine exists_congr fun k => and_congr_right fun found => ?_
    rw [Keys.admits, decide_eq_true_eq]
    refine ⟨fun indexed i => ?_, fun all i _ => all i⟩
    by_cases low : i < Settings.clampPositions positions
    · exact indexed i low
    · rcases wild i (Nat.le_of_not_lt low) with any | any
      · simp [Key.admits, Key.isAny, any]
      · simp [Key.admits, Key.isAny, any k (List.mem_of_getElem? found)]

/-- Five clauses with keys on two positions, the third of them with a variable. -/
def sampleKeys : List Keys :=
  [#v[⟨803⟩, ⟨12⟩, .any], #v[⟨803⟩, ⟨20⟩, .any], #v[⟨803⟩, .any, .any],
    #v[⟨803⟩, ⟨12⟩, .any], #v[⟨1603⟩, ⟨12⟩, .any]]

def sampleGoal : Keys := #v[⟨803⟩, ⟨12⟩, ⟨28⟩]

theorem candidates_exactly_sampleKeys :
    (∀ i : Fin maxPositions, Settings.clampPositions 2 ≤ i →
      sampleGoal.get i = .any ∨ ∀ k ∈ sampleKeys, k.get i = .any) ∧
    ∀ id, id ∈ (build sampleKeys 2).candidates sampleGoal ↔
      ∃ k, sampleKeys[id]? = some k ∧ Keys.admits sampleGoal k = true := by
  have wild : ∀ i : Fin maxPositions, Settings.clampPositions 2 ≤ i →
      sampleGoal.get i = .any ∨ ∀ k ∈ sampleKeys, k.get i = .any := by
    decide
  exact ⟨wild, (candidates_exactly sampleKeys 2 sampleGoal).2.2.2 wild⟩

end ClauseIndex

namespace Program

/-- The index, if there is one, was built from the keys of the clauses. -/
def Indexed (p : Program) : Prop :=
  ∀ index, p.index = some index →
    index = ClauseIndex.build (p.clauses.toList.map (·.keys)) p.settings.positions

/-- The candidates are a selection of all clauses that leaves out none whose keys
admit those of the goal, with an index or without. -/
theorem exists_selected {p : Program} (indexed : p.Indexed) (keys : Keys) :
    ∃ selected : Nat → Bool,
      (p.candidatesFor keys).toList = (List.range p.clauses.size).filter selected ∧
      ∀ id c, p.clauses[id]? = some c → keys.admits c.keys = true → selected id = true := by
  unfold candidatesFor
  cases which : p.index with
  | none =>
    refine ⟨fun _ => true, ?_, fun _ _ _ _ => rfl⟩
    exact (List.filter_eq_self.mpr fun _ _ => rfl).symm
  | some index =>
    obtain rfl := indexed index which
    have candidates := ClauseIndex.candidates_eq_filter (p.clauses.toList.map (·.keys))
      p.settings.positions keys
    refine ⟨_, by simpa [Candidates.toList] using candidates, fun id c found admits => ?_⟩
    have member : id ∈ (ClauseIndex.build (p.clauses.toList.map (·.keys))
        p.settings.positions).candidates keys :=
      ClauseIndex.mem_candidates_of_admits (by simp [found]) admits
    rw [candidates] at member
    exact (List.mem_filter.mp member).2

end Program

end HornMachine
