import HornMachine.Proofs.Asking

/-!
# Walks

A walk is a search move by move, together with the terms that are answered on the
way. It does not stop at an answer, so walks compose. What a walk answers is what
the machine answers when it is asked as often, and a walk that leaves no branch
behind ends a search: from then on nothing more is answered.
-/
namespace HornMachine.Program

/-- A move of the search, with the term it answers if it is an answer. -/
inductive Move (p : Program) (queryHead : Cell) (floor : Store) :
    List Branch → List Term → List Branch → Prop
  | barren {b : Branch} {bs : List Branch} {x : Term} : b.point.hasGoals = false →
      (current floor bs).heap.readout p.symbols b.point.head = .ok x →
      Move p queryHead floor (b :: bs) [x] bs
  | dropped {b : Branch} {bs : List Branch} : b.point.hasGoals = true →
      p.Spent queryHead b → Move p queryHead floor (b :: bs) [] bs
  | descended {b : Branch} {bs : List Branch} {next left : ChoicePoint} {u : Store} :
      b.point.hasGoals = true → b.point.hasClauses = true →
      p.Unfolds queryHead b (.advanced next) left u →
      Move p queryHead floor (b :: bs) [] (⟨next, u⟩ :: ⟨left, b.store⟩ :: bs)
  | answered {b : Branch} {bs : List Branch} {a : Answer} {left : ChoicePoint} {u : Store}
      {x : Term} : b.point.hasGoals = true → b.point.hasClauses = true →
      p.Unfolds queryHead b (.answered a) left u →
      u.heap.readout p.symbols a.head = .ok x →
      Move p queryHead floor (b :: bs) [x] (⟨left, b.store⟩ :: bs)

/-- Any number of moves. -/
inductive Walk (p : Program) (queryHead : Cell) (floor : Store) :
    List Branch → List Term → List Branch → Prop
  | done {bs : List Branch} : Walk p queryHead floor bs [] bs
  | move {bs mid bs' : List Branch} {xs ys : List Term} : p.Move queryHead floor bs xs mid →
      Walk p queryHead floor mid ys bs' → Walk p queryHead floor bs (xs ++ ys) bs'

variable {p : Program} {queryHead : Cell} {floor : Store} {bs mid bs' : List Branch}
  {xs ys : List Term} {x : Term} {o : Option (Answer × Store)} {ts : List (Option Term)}

theorem Walk.trans (first : p.Walk queryHead floor bs xs mid)
    (second : p.Walk queryHead floor mid ys bs') : p.Walk queryHead floor bs (xs ++ ys) bs' := by
  induction first with
  | done => exact second
  | move step _ ih =>
    rw [List.append_assoc]
    exact .move step (ih second)

/-- A move without an answer only delays the next one. -/
theorem Move.silent (move : p.Move queryHead floor bs xs mid) (none : xs = [])
    (e : p.Explored queryHead floor mid o bs') : p.Explored queryHead floor bs o bs' := by
  cases move with
  | barren _ _ => cases none
  | dropped goals spent => exact .dropped goals spent e
  | descended goals clauses turn => exact .descended goals clauses turn e
  | answered _ _ _ _ => cases none

theorem Move.told (move : p.Move queryHead floor bs xs mid) :
    xs = [] ∨ ∃ x o, xs = [x] ∧ p.Explored queryHead floor bs o mid ∧ p.Told o (some x) := by
  cases move with
  | barren goals read => exact .inr ⟨_, _, rfl, .barren goals, _, read, rfl⟩
  | dropped _ _ => exact .inl rfl
  | descended _ _ _ => exact .inl rfl
  | answered goals clauses turn read =>
    exact .inr ⟨_, _, rfl, .answered goals clauses turn, _, read, rfl⟩

/-- Asking for the answers of a walk gives them, and leaves what is on the way to
the end of the walk. -/
theorem Walk.asked (walk : p.Walk queryHead floor bs xs bs') :
    ∃ mid, p.Asked queryHead floor bs (xs.map some) mid ∧ p.Walk queryHead floor mid [] bs' := by
  induction walk with
  | done => exact ⟨_, .nil, .done⟩
  | @move bs mid bs' xs ys first later ih =>
    obtain ⟨rest, asked, final⟩ := ih
    rcases first.told with none | ⟨x, o, rfl, explored, told⟩
    · subst none
      generalize answers : ys.map some = ts at asked
      cases asked with
      | nil =>
        obtain rfl := List.map_eq_nil_iff.mp answers
        exact ⟨bs, .nil, .move first later⟩
      | cons explored told others =>
        rw [List.nil_append, answers]
        exact ⟨rest, .cons (first.silent rfl explored) told others, final⟩
    · exact ⟨rest, .cons explored told asked, final⟩

theorem Walk.explored (walk : p.Walk queryHead floor bs xs bs') (none : xs = [])
    (ended : bs' = []) : p.Explored queryHead floor bs Option.none [] := by
  induction walk with
  | done =>
    subst ended
    exact .finished
  | move first _ ih =>
    obtain ⟨here, later⟩ := List.append_eq_nil_iff.mp none
    exact first.silent here (ih later ended)

theorem Asked.append {ts' : List (Option Term)} (first : p.Asked queryHead floor bs ts mid)
    (second : p.Asked queryHead floor mid ts' bs') :
    p.Asked queryHead floor bs (ts ++ ts') bs' := by
  induction first with
  | nil => exact second
  | cons explored told _ ih => exact .cons explored told (ih second)

theorem Asked.ended (p : Program) (queryHead : Cell) (floor : Store) (count : Nat) :
    p.Asked queryHead floor [] (List.replicate count none) [] := by
  induction count with
  | zero => exact .nil
  | succ count ih => exact .cons .finished rfl ih

theorem Walk.asked_all (walk : p.Walk queryHead floor bs xs []) (count : Nat) :
    ∃ bs', p.Asked queryHead floor bs (xs.map some ++ List.replicate count none) bs' := by
  obtain ⟨mid, asked, final⟩ := walk.asked
  cases count with
  | zero => exact ⟨mid, by rw [List.replicate_zero, List.append_nil]; exact asked⟩
  | succ count =>
    exact ⟨[], asked.append (.cons (final.explored rfl rfl) rfl (.ended p queryHead floor count))⟩

theorem Asked.take (e : p.Asked queryHead floor bs ts bs') (count : Nat) :
    ∃ mid, p.Asked queryHead floor bs (ts.take count) mid := by
  induction e generalizing count with
  | @nil bs => exact ⟨bs, by rw [List.take_nil]; exact .nil⟩
  | @cons bs _ _ _ _ _ explored told _ ih =>
    cases count with
    | zero => exact ⟨bs, .nil⟩
    | succ count =>
      obtain ⟨mid, asked⟩ := ih count
      exact ⟨mid, .cons explored told asked⟩

end HornMachine.Program
