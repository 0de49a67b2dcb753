import HornMachine.Proofs.Moments
import HornMachine.Proofs.UncalledSearch

/-!
# Sessions

A loaded machine is asked, stepped and restarted in any order. Between two calls it
rests on a stack and a store; during a call it goes through the moments of a search.
After a step the bindings of the answer stay in place, and the next search goes on
from there.
-/
namespace HornMachine

/-- What can be called on a machine. -/
inductive Call
  | ask
  | step
  | restart
deriving DecidableEq, Repr

namespace Machine

/-- One call, whatever it answers. -/
def call (m : Machine) (fuel : Nat) : Call → Except Halt Machine
  | .ask => do return (← m.ask fuel).2
  | .step => do return (← m.step fuel).2
  | .restart => m.restart

/-- Call after call, as long as they return. -/
def calls (m : Machine) (fuel : Nat) : List Call → Except Halt Machine
  | [] => .ok m
  | c :: cs => do (← m.call fuel c).calls fuel cs

/-- The choice point a query starts from when the trail has `mark` entries. -/
def startPoint (m : Machine) (mark : Nat) : ChoicePoint :=
  .fresh m.program.query.head m.program.staticTop m.program.query.body mark
    m.program.clauses.size

/-- The program at rest on a stack and a store. -/
def paused (m : Machine) (stack : List Made) (store : Store) : Machine :=
  ⟨m.program, store, stack.map (·.point), m.queryHead⟩

/-- The calls `cs` on the loaded machine `m` lead to a rest on a stack and a store. -/
inductive Session (m : Machine) : List Call → List Made → Store → Prop
  | loaded : Session m [] [⟨m.startPoint 0, m.store⟩] m.store
  | stepped {cs : List Call} {stack stack' : List Made} {s t : Store}
      {o : Option (Answer × Store)} : Session m cs stack s →
      m.program.Passes m.queryHead (.choosing stack s) (.ended o stack' t) →
      Session m (cs ++ [.step]) stack' t
  | asked {cs : List Call} {stack stack' : List Made} {s t u : Store} {a : Answer}
      {origin : Store} : Session m cs stack s →
      m.program.Passes m.queryHead (.choosing stack s) (.ended (some (a, origin)) stack' t) →
      t.restore a.trailMark a.base = .ok u → Session m (cs ++ [.ask]) stack' u
  | exhausted {cs : List Call} {stack stack' : List Made} {s t : Store} :
      Session m cs stack s →
      m.program.Passes m.queryHead (.choosing stack s) (.ended none stack' t) →
      Session m (cs ++ [.ask]) stack' t
  | restarted {cs : List Call} {stack : List Made} {s t : Store} : Session m cs stack s →
      s.restore 0 m.program.staticTop = .ok t →
      Session m (cs ++ [.restart]) [⟨m.startPoint t.trail.mark, t⟩] t

/-- A moment of the call that comes after the calls `cs`. -/
def During (m : Machine) (cs : List Call) (a : Moment) : Prop :=
  ∃ stack s, m.Session cs stack s ∧ m.program.Passes m.queryHead (.choosing stack s) a

theorem During.next {m : Machine} {cs : List Call} {a b : Moment} (during : m.During cs a)
    (turn : m.program.next m.queryHead a = .ok b) : m.During cs b := by
  obtain ⟨stack, s, session, passes⟩ := during
  exact ⟨stack, s, session, passes.tail turn⟩

/-- What holds at every moment of a session, if the turns of a search keep it, an
ended search leaves it to the next one, and so does restarting. -/
theorem During.keeps {m : Machine} {I : Moment → Prop} {cs : List Call} {a : Moment}
    (loaded : I (.choosing [⟨m.startPoint 0, m.store⟩] m.store))
    (turn : ∀ {cs a b}, m.During cs a → I a → m.program.Turn m.queryHead a b → I b)
    (stepped : ∀ {cs o stack s}, m.During cs (.ended o stack s) → I (.ended o stack s) →
      I (.choosing stack s))
    (asked : ∀ {cs a origin stack s t}, m.During cs (.ended (some (a, origin)) stack s) →
      I (.ended (some (a, origin)) stack s) → s.restore a.trailMark a.base = .ok t →
      I (.choosing stack t))
    (restarted : ∀ {cs stack s t}, m.Session cs stack s → I (.choosing stack s) →
      s.restore 0 m.program.staticTop = .ok t →
      I (.choosing [⟨m.startPoint t.trail.mark, t⟩] t))
    (during : m.During cs a) : I a := by
  have later {cs stack s b} (session : m.Session cs stack s) (start : I (.choosing stack s))
      (passes : m.program.Passes m.queryHead (.choosing stack s) b) : I b := by
    induction passes with
    | refl => exact start
    | tail earlier last ih => exact turn ⟨stack, s, session, earlier⟩ ih (.of_next last)
  have rest {cs stack s} (session : m.Session cs stack s) : I (.choosing stack s) := by
    induction session with
    | loaded => exact loaded
    | stepped session passes ih =>
      exact stepped ⟨_, _, session, passes⟩ (later session ih passes)
    | asked session passes back ih =>
      exact asked ⟨_, _, session, passes⟩ (later session ih passes) back
    | exhausted session passes ih =>
      exact stepped ⟨_, _, session, passes⟩ (later session ih passes)
    | restarted session back ih => exact restarted session ih back
  obtain ⟨stack, s, session, passes⟩ := during
  exact later session (rest session) passes

/-! ### The calls of the machine -/

variable {m n : Machine} {cs : List Call} {stack : List Made} {s : Store} {fuel : Nat}
  {o : Option Answer} {e : Halt}

theorem step_paused (returned : (m.paused stack s).step fuel = .ok (o, n)) :
    ∃ answer stack' t, m.program.Passes m.queryHead (.choosing stack s)
        (.ended answer stack' t) ∧
      answer.map (·.1) = o ∧ n = m.paused stack' t := by
  obtain ⟨⟨o', points, t⟩, searched, same⟩ := Halt.bind_eq_ok.mp returned
  have comes := m.program.comes_search m.queryHead fuel stack s
  rw [searched] at comes
  obtain ⟨answer, stack', passes, rfl, rfl⟩ := comes
  cases same
  exact ⟨answer, stack', t, passes, rfl, rfl⟩

theorem step_paused_error (halted : (m.paused stack s).step fuel = .error e) :
    e = .unfinished ∨ ∃ a, m.program.Passes m.queryHead (.choosing stack s) a ∧
      m.program.next m.queryHead a = .error e := by
  have comes := m.program.comes_search m.queryHead fuel stack s
  rcases Halt.bind_eq_error.mp halted with stopped | ⟨result, -, same⟩
  · rw [stopped] at comes
    exact comes
  · cases same

/-- What asking returns is what its moments end with, once the answer is undone. -/
theorem ask_paused {x : Option Term} (returned : (m.paused stack s).ask fuel = .ok (x, n)) :
    ∃ answer stack' t, m.program.Passes m.queryHead (.choosing stack s)
        (.ended answer stack' t) ∧
      match answer with
      | none => x = none ∧ n = m.paused stack' t
      | some (a, _) => x.isSome ∧ ∃ u, t.restore a.trailMark a.base = .ok u ∧
          n = m.paused stack' u := by
  obtain ⟨⟨o, between⟩, stepped, rest⟩ := Halt.bind_eq_ok.mp returned
  obtain ⟨answer, stack', t, passes, rfl, rfl⟩ := step_paused stepped
  refine ⟨answer, stack', t, passes, ?_⟩
  cases answer with
  | none =>
    cases rest
    exact ⟨rfl, rfl⟩
  | some last =>
    obtain ⟨term, -, rest⟩ := Halt.bind_eq_ok.mp rest
    obtain ⟨back, retracted, rest⟩ := Halt.bind_eq_ok.mp rest
    obtain ⟨u, restored, same⟩ := Halt.bind_eq_ok.mp retracted
    cases rest
    cases same
    exact ⟨rfl, u, restored, rfl⟩

/-- Every call that returns leads from rest to rest. -/
theorem Session.call {c : Call} (head : m.queryHead = m.program.query.head)
    (session : m.Session cs stack s) (returned : (m.paused stack s).call fuel c = .ok n) :
    ∃ stack' t, m.Session (cs ++ [c]) stack' t ∧ n = m.paused stack' t := by
  cases c with
  | ask =>
    obtain ⟨⟨x, n'⟩, asked, same⟩ := Halt.bind_eq_ok.mp returned
    cases same
    obtain ⟨answer, stack', t, passes, outcome⟩ := ask_paused asked
    cases answer with
    | none => exact ⟨stack', t, session.exhausted passes, outcome.2⟩
    | some last =>
      obtain ⟨-, u, restored, same⟩ := outcome
      exact ⟨stack', u, session.asked passes restored, same⟩
  | step =>
    obtain ⟨⟨o, n'⟩, stepped, same⟩ := Halt.bind_eq_ok.mp returned
    cases same
    obtain ⟨answer, stack', t, passes, -, same⟩ := step_paused stepped
    exact ⟨stack', t, session.stepped passes, same⟩
  | restart =>
    obtain ⟨t, restored, same⟩ := Halt.bind_eq_ok.mp returned
    cases same
    exact ⟨_, t, session.restarted restored, by rw [paused, head]; rfl⟩

theorem Session.calls {ds : List Call} (head : m.queryHead = m.program.query.head)
    (session : m.Session cs stack s) (returned : (m.paused stack s).calls fuel ds = .ok n) :
    ∃ stack' t, m.Session (cs ++ ds) stack' t ∧ n = m.paused stack' t := by
  induction ds generalizing cs stack s with
  | nil =>
    cases returned
    exact ⟨stack, s, by rwa [List.append_nil], rfl⟩
  | cons c ds ih =>
    obtain ⟨between, called, later⟩ := Halt.bind_eq_ok.mp returned
    obtain ⟨stack', t, session', rfl⟩ := session.call head called
    rw [← List.singleton_append, ← List.append_assoc]
    exact ih session' later

theorem LoadedFrom.paused {settings : Settings} {codes : List ClauseCode} {t : Symbols}
    (loaded : m.LoadedFrom settings codes t) :
    m = m.paused [⟨m.startPoint 0, m.store⟩] m.store := by
  have same : m = ⟨m.program, m.store, [m.startPoint 0], m.queryHead⟩ := by
    rw [startPoint, ← loaded.stack]
  exact same

theorem LoadedFrom.session {settings : Settings} {codes : List ClauseCode} {t : Symbols}
    (loaded : m.LoadedFrom settings codes t) (returned : m.calls fuel cs = .ok n) :
    ∃ stack s, m.Session cs stack s ∧ n = m.paused stack s := by
  rw [loaded.paused] at returned
  exact Session.loaded.calls loaded.queryHead returned

end Machine

end HornMachine
