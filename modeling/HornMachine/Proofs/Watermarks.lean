import HornMachine.Proofs.Moments
import HornMachine.Proofs.Scanning

/-!
# Nested watermarks

Every choice point records the top and the mark of its origin, and the store in force
on top of it extends this origin. So the choice points of a stack are nested: going
back to the watermarks of any of them gives its origin, cell for cell. A turn of a
search keeps this, since it only appends cells and binds unbound variables, of which
it logs all that lie below the copy it made last; whatever it undoes brings back an
origin.

The trail stays tidy. A variable that is logged was unbound and is bound from then
on, so it is not logged again before it is undone.
-/
namespace HornMachine

namespace Store

theorem Extends.trans {s t u : Store} (first : Extends s t) (second : Extends t u) :
    Extends s u := by
  obtain ⟨log, e⟩ := first
  obtain ⟨log', f⟩ := second
  refine ⟨log ++ log', ?_, e.top_le.trans f.top_le, ?_, ?_, ?_⟩
  · rw [f.entries, e.entries, List.append_assoc]
  · intro a member
    rcases List.mem_append.mp member with old | new
    · exact (e.inside a old).trans_le f.top_le
    · exact f.inside a new
  · intro a member below
    by_cases old : a ∈ log
    · exact e.unbound a old below
    · have new := (List.mem_append.mp member).resolve_left old
      rw [← e.kept a below old]
      exact f.unbound a new (below.trans_le e.top_le)
  · intro a below free
    rw [List.mem_append, not_or] at free
    rw [f.kept a (below.trans_le e.top_le) free.2, e.kept a below free.1]

theorem Extends.mark_le {s t : Store} (e : Extends s t) : s.trail.mark ≤ t.trail.mark := by
  obtain ⟨log, e⟩ := e
  have lengths := congrArg List.length e.entries
  rw [List.length_append, Array.length_toList, Array.length_toList] at lengths
  unfold Trail.mark
  omega

theorem Extends.restored {s t u : Store} (e : Extends s t)
    (back : t.restore s.trail.mark s.heap.top = .ok u) : u = s :=
  Except.ok.inj (back.symm.trans e.restore)

/-- No variable is logged twice, and every logged variable is bound. -/
structure Steady (s : Store) : Prop where
  rooted : s.heap.Rooted
  distinct : s.trail.addrs.toList.Nodup
  bound : ∀ a ∈ s.trail.addrs.toList, ∃ c, s.heap.get? a = some c ∧
    (c.isVar = true → c.addr ≠ a)

theorem Steady.append {h k : Heap} {trail : Trail} {cs : List Cell}
    (steady : Steady ⟨h, trail⟩) (appended : k.toList = h.toList ++ cs) (rooted : k.Rooted) :
    Steady ⟨k, trail⟩ where
  rooted := rooted
  distinct := steady.distinct
  bound a member := by
    obtain ⟨c, found, apart⟩ := steady.bound a member
    exact ⟨c, Heap.get?_append_left appended found, apart⟩

/-- Binding an unbound variable to something else keeps the trail tidy. -/
theorem Steady.bind {s t : Store} {boundary a : Nat} {v e : Cell} (steady : s.Steady)
    (free : s.heap.get? a = some v) (isVar : v.isVar = true) (self : v.addr = a)
    (apart : e.isVar = true → e.addr ≠ a) (bound : s.bind boundary a e = .ok t) :
    t.Steady := by
  obtain ⟨written, trail⟩ := bind_eq_ok.mp bound
  have new : a ∉ s.trail.addrs.toList := by
    intro member
    obtain ⟨c, found, other⟩ := steady.bound a member
    obtain rfl : v = c := Option.some.inj (free.symm.trans found)
    exact other isVar self
  have kept : ∀ b ∈ s.trail.addrs.toList, ∃ c, t.heap.get? b = some c ∧
      (c.isVar = true → c.addr ≠ b) := by
    intro b member
    have other : b ≠ a := by
      rintro rfl
      exact new member
    rw [Heap.get?_write written, if_neg other]
    exact steady.bound b member
  have rooted := steady.rooted.write written apart
  by_cases low : a ≤ boundary
  · rw [if_pos low] at trail
    have entries : t.trail.addrs.toList = s.trail.addrs.toList ++ [a] := by
      rw [trail, Trail.push, Array.toList_push]
    refine ⟨rooted, ?_, ?_⟩
    · rw [entries, List.nodup_append]
      refine ⟨steady.distinct, by simp, ?_⟩
      intro b old c single
      rw [List.mem_singleton.mp single]
      rintro rfl
      exact new old
    · intro b member
      rw [entries, List.mem_append, List.mem_singleton] at member
      rcases member with old | rfl
      · exact kept b old
      · exact ⟨e, by rw [Heap.get?_write written, if_pos rfl], apart⟩
  · rw [if_neg low] at trail
    rw [← trail] at kept
    exact ⟨rooted, trail ▸ steady.distinct, kept⟩

theorem Steady.turn {base s t : Store} {boundary : Nat} {a b : Cell}
    {work queued : List (Cell × Cell)} (steady : s.Steady) (extends' : Extends base s)
    (covered : base.heap.top ≤ boundary + 1)
    (turned : unifyTurn boundary a b work s = .ok (some (queued, t))) :
    t.Steady ∧ Extends base t ∧ t.heap.top = s.heap.top := by
  obtain ⟨x, y, ax, bY, met⟩ := Met.of_unifyTurn turned
  cases met with
  | same _ => exact ⟨steady, extends', rfl⟩
  | opened _ _ _ _ _ _ => exact ⟨steady, extends', rfl⟩
  | bound other sides isVar _ binding =>
    obtain ⟨root, apart⟩ := bound_root ax bY other sides isVar
    have free := steady.rooted _ _ root isVar rfl
    exact ⟨steady.bind root isVar rfl apart binding,
      extends'.bind (free ▸ root) (fun below => by omega) binding,
      Heap.top_write (bind_eq_ok.mp binding).1⟩

end Store

theorem Clause.CopiedBody.rooted {c : Clause} {t : Store} {h full : Heap}
    (copied : c.CopiedBody t h full) (placed : c.Placed t.heap.top) (rooted : h.Rooted)
    (size : h.top = t.heap.top + c.headLen) : full.Rooted := by
  have := placed.inside
  have := placed.head
  have same : h.top - (c.base + c.headLen) = c.shift t := by
    unfold shift
    omega
  unfold CopiedBody at copied
  rw [← same] at copied
  exact rooted.copy (by omega) copied

/-! ### Nested choice points -/

/-- A choice point on which the store `s` is in force. -/
structure Made.Atop (q : Made) (s : Store) : Prop where
  base : q.point.base = q.origin.heap.top
  mark : q.point.trailMark = q.origin.trail.mark
  extends' : q.origin.Extends s
  steady : s.Steady

/-- Below the store in force on a choice point lies its origin, which is in force on
the choice point below. The property `I` holds of each with its store. -/
def Nested (I : Made → Store → Prop) (floor : Store) : List Made → Store → Prop
  | [], s => s = floor
  | q :: qs, s => I q s ∧ Nested I floor qs q.origin

variable {floor s t : Store} {q : Made} {qs : List Made}

theorem Nested.advance {I : Made → Store → Prop} {trial : Trial} {untried : Nat}
    (nested : Nested I floor trial.stack s)
    (kept : I trial.top s → I (trial.advance untried).top s) :
    Nested I floor (trial.advance untried).stack s :=
  ⟨kept nested.1, nested.2⟩

theorem Made.Atop.advance {trial : Trial} (atop : trial.top.Atop s) (untried : Nat) :
    (trial.advance untried).top.Atop s :=
  ⟨atop.base, atop.mark, atop.extends', atop.steady⟩

theorem Made.Atop.restore (atop : q.Atop s) :
    s.restore q.point.trailMark q.point.base = .ok q.origin := by
  rw [atop.base, atop.mark]
  exact atop.extends'.restore

theorem Made.Atop.restored (atop : q.Atop s)
    (back : s.restore q.point.trailMark q.point.base = .ok t) : t = q.origin :=
  Except.ok.inj (back.symm.trans atop.restore)

theorem Made.Atop.mono (atop : q.Atop s) (extends' : s.Extends t) (steady : t.Steady) :
    q.Atop t := ⟨atop.base, atop.mark, atop.extends'.trans extends', steady⟩

namespace Nested

theorem mono (nested : Nested Made.Atop floor (q :: qs) s) (extends' : s.Extends t)
    (steady : t.Steady) : Nested Made.Atop floor (q :: qs) t :=
  ⟨nested.1.mono extends' steady, nested.2⟩

theorem steady (nested : Nested Made.Atop floor qs s) (start : floor.Steady) : s.Steady := by
  cases qs with
  | nil =>
    cases nested
    exact start
  | cons q qs => exact nested.1.steady

theorem extends_origin (nested : Nested Made.Atop floor qs s) : ∀ q ∈ qs, q.origin.Extends s := by
  induction qs generalizing s with
  | nil => exact nofun
  | cons q qs ih =>
    intro r member
    rcases List.mem_cons.mp member with rfl | later
    · exact nested.1.extends'
    · exact (ih nested.2 r later).trans nested.1.extends'

theorem extends_floor (nested : Nested Made.Atop floor qs s) : floor.Extends s := by
  induction qs generalizing s with
  | nil =>
    cases nested
    exact .refl _
  | cons q qs ih => exact (ih nested.2).trans nested.1.extends'

theorem watermarks (nested : Nested Made.Atop floor qs s) :
    ∀ q ∈ qs, q.point.base = q.origin.heap.top ∧ q.point.trailMark = q.origin.trail.mark := by
  induction qs generalizing s with
  | nil => exact nofun
  | cons q qs ih =>
    intro r member
    rcases List.mem_cons.mp member with rfl | later
    · exact ⟨nested.1.base, nested.1.mark⟩
    · exact ih nested.2 r later

theorem restore (nested : Nested Made.Atop floor qs s) :
    ∀ q ∈ qs, s.restore q.point.trailMark q.point.base = .ok q.origin := by
  intro q member
  obtain ⟨base, mark⟩ := nested.watermarks q member
  rw [base, mark]
  exact (nested.extends_origin q member).restore

theorem ascending (nested : Nested Made.Atop floor qs s) :
    (qs.map (·.point)).Pairwise fun upper lower =>
      lower.base ≤ upper.base ∧ lower.trailMark ≤ upper.trailMark := by
  induction qs generalizing s with
  | nil => exact List.Pairwise.nil
  | cons q qs ih =>
    rw [List.map_cons, List.pairwise_cons]
    refine ⟨?_, ih nested.2⟩
    intro point member
    obtain ⟨r, below, rfl⟩ := List.mem_map.mp member
    obtain ⟨base, mark⟩ := nested.2.watermarks r below
    have extends' := nested.2.extends_origin r below
    rw [base, mark, nested.1.base, nested.1.mark]
    exact ⟨extends'.top_le, extends'.mark_le⟩

end Nested

namespace Program

variable {p : Program} {queryHead : Cell} {a b : Moment}

/-- Preparing a choice point only adds the keys and candidates of its first goal. -/
theorem point_prepare {h : Heap} {goal : Cell} {point point' : ChoicePoint} {keys : Keys}
    (prepared : p.prepare h goal point = .ok (keys, point')) :
    ∃ candidates, point' = { point with keys := some keys, candidates } := by
  unfold prepare at prepared
  cases known : point.keys with
  | some K =>
    rw [known] at prepared
    cases prepared
    exact ⟨point.candidates, by rw [← known]⟩
  | none =>
    rw [known] at prepared
    obtain ⟨K, -, same⟩ := Halt.bind_eq_ok.mp prepared
    cases same
    exact ⟨_, rfl⟩

/-- The watermarks at a moment of a search that started from `floor`. -/
def Marked (p : Program) (floor : Store) : Moment → Prop
  | .choosing stack s => Nested Made.Atop floor stack s
  | .trying trial s => Nested Made.Atop floor trial.stack s
  | .unifying trial attempt _ s => Nested Made.Atop floor trial.stack attempt.origin ∧
      p.clauses[attempt.id]? = some attempt.clause ∧ attempt.origin.Extends s ∧ s.Steady ∧
      s.heap.top = attempt.origin.heap.top + attempt.clause.headLen
  | .resolved trial attempt _ s => Nested Made.Atop floor trial.stack attempt.origin ∧
      attempt.origin.Extends s ∧ s.Steady
  | .ended none stack s => stack = [] ∧ s = floor
  | .ended (some (a, origin)) stack s => Nested Made.Atop floor stack s ∧
      Nested Made.Atop floor stack origin ∧ origin.Extends s ∧
      a.trailMark = origin.trail.mark ∧ a.base = origin.heap.top

/-- Every turn keeps the choice points nested. -/
theorem Marked.turn (placed : p.Placed) (static : floor.heap.top = p.staticTop)
    (start : floor.Steady) (marked : p.Marked floor a) (turn : p.Turn queryHead a b) :
    p.Marked floor b := by
  cases turn with
  | finished => exact ⟨rfl, marked⟩
  | held _ restored =>
    obtain rfl := marked.1.restored restored
    exact ⟨marked.2, marked.2, .refl _, marked.1.mark, marked.1.base⟩
  | prepared _ prepared =>
    obtain ⟨candidates, rfl⟩ := point_prepare prepared
    exact ⟨⟨marked.1.base, marked.1.mark, marked.1.extends', marked.1.steady⟩, marked.2⟩
  | dropped restored =>
    obtain rfl := marked.1.restored restored
    exact marked.2
  | exhausted restored =>
    obtain rfl := marked.1.restored restored
    exact marked.2
  | passed untried => exact Nested.advance marked (Made.Atop.advance · untried)
  | @copied trial s id clause head heap untried candidate found admitted copied =>
    have advanced : Nested Made.Atop floor (trial.advance untried).stack s :=
      Nested.advance marked (Made.Atop.advance · untried)
    have static' : p.staticTop ≤ s.heap.top := static ▸ marked.extends_floor.top_le
    have here := (placed id clause found).mono static'
    obtain ⟨rfl, copied⟩ := (Clause.copyHead_eq_ok here).mp copied
    have inside := here.inside
    have short := here.head
    have steady := marked.steady start
    exact ⟨advanced, found, (Store.Extends.refl s).append copied,
      steady.append copied (steady.rooted.copy (by omega) copied), copied.top here⟩
  | @unified trial attempt s body heap copied =>
    obtain ⟨nested, found, extends', steady, size⟩ := marked
    have here := (placed _ _ found).mono (static ▸ nested.extends_floor.top_le)
    obtain ⟨rfl, copied⟩ := (Clause.copyBody_eq_ok (t := attempt.origin)
      (here.mono (by omega))).mp copied
    exact ⟨nested, extends'.append copied,
      steady.append copied (copied.rooted here steady.rooted size)⟩
  | met turned =>
    obtain ⟨nested, found, extends', steady, size⟩ := marked
    obtain ⟨steady', extends'', size'⟩ := steady.turn extends' (Nat.le_succ _) turned
    exact ⟨nested, found, extends'', steady', size'.trans size⟩
  | clashed _ restored =>
    obtain ⟨nested, -, extends', -, -⟩ := marked
    obtain rfl := extends'.restored restored
    exact nested
  | answered _ =>
    obtain ⟨nested, extends', steady⟩ := marked
    exact ⟨nested.mono extends' steady, nested, extends', rfl, rfl⟩
  | advanced _ =>
    obtain ⟨nested, extends', steady⟩ := marked
    exact ⟨⟨rfl, rfl, extends', steady⟩, nested⟩
  | rests => exact marked

theorem Marked.extends_floor (marked : p.Marked floor a) : floor.Extends a.store := by
  cases a with
  | choosing stack s => exact Nested.extends_floor marked
  | trying trial s => exact Nested.extends_floor marked
  | unifying trial attempt work s => exact marked.1.extends_floor.trans marked.2.2.1
  | resolved trial attempt body s => exact marked.1.extends_floor.trans marked.2.1
  | ended o stack s =>
    cases o with
    | none =>
      obtain ⟨-, rfl⟩ := marked
      exact .refl _
    | some last => exact marked.1.extends_floor

theorem Marked.undone {answer : Answer} {origin : Store}
    (marked : p.Marked floor (.ended (some (answer, origin)) qs s)) :
    s.restore answer.trailMark answer.base = .ok origin := by
  obtain ⟨-, -, extends', mark, base⟩ := marked
  rw [mark, base]
  exact extends'.restore

theorem Passes.marked (placed : p.Placed) (static : floor.heap.top = p.staticTop)
    (start : floor.Steady) (nested : Nested Made.Atop floor qs s)
    (passes : p.Passes queryHead (.choosing qs s) b) : p.Marked floor b := by
  have first : p.Marked floor (.choosing qs s) := nested
  exact passes.keeps (fun marked => marked.turn placed static start) first

end Program

end HornMachine
