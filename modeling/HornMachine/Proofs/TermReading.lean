import HornMachine.Proofs.HeapView
import HornMachine.Proofs.SymbolTable
import HornMachine.Term.Readout

/-!
# The term at a cell

The walk that reads a term out keeps the structures it is inside on a list of frames,
and their headers in a set. Opening a frame adds its header and closing it takes the
header away, so the set holds the headers of the open frames and nothing else. What
the walk computes is said without frames by recursion on the number of structures that
may still be opened: a finished term stands for itself, and a structure for the array
of its elements, unless it is open already or lies too deep.
-/
namespace HornMachine

namespace Heap

variable {h : Heap} {symbols : Symbols}

/-- The term at a cell inside the structures at `opens`, of which `left` more may be
opened. -/
def termAt (h : Heap) (symbols : Symbols) : Nat → List Nat → Cell → Except Halt Term
  | 0, _, c => do
    match ← h.openCell symbols c with
    | .leaf t => .ok t
    | .block _ _ => .ok (.label "...")
  | left + 1, opens, c => do
    match ← h.openCell symbols c with
    | .leaf t => .ok t
    | .block a elements =>
      if a ∈ opens then .ok (.label "...")
      else return .array (← elements.mapM (h.termAt symbols left (a :: opens)))

theorem termAt_error {left : Nat} {opens : List Nat} {c : Cell} {e : Halt}
    (opened : h.openCell symbols c = .error e) : h.termAt symbols left opens c = .error e := by
  cases left <;> rw [termAt, opened] <;> rfl

theorem termAt_leaf {left : Nat} {opens : List Nat} {c : Cell} {t : Term}
    (opened : h.openCell symbols c = .ok (.leaf t)) : h.termAt symbols left opens c = .ok t := by
  cases left <;> rw [termAt, opened] <;> rfl

theorem termAt_block {left a : Nat} {opens : List Nat} {c : Cell} {elements : List Cell}
    (opened : h.openCell symbols c = .ok (.block a elements)) (new : a ∉ opens) :
    h.termAt symbols (left + 1) opens c =
      elements.mapM (h.termAt symbols left (a :: opens)) >>= fun ts => .ok (.array ts) := by
  rw [termAt, opened, Halt.ok_bind]
  dsimp only
  rw [if_neg new]
  rfl

theorem termAt_cut {left a : Nat} {opens : List Nat} {c : Cell} {elements : List Cell}
    (opened : h.openCell symbols c = .ok (.block a elements)) (cut : left = 0 ∨ a ∈ opens) :
    h.termAt symbols left opens c = .ok (.label "...") := by
  cases left with
  | zero =>
    rw [termAt, opened]
    rfl
  | succ left =>
    have again := cut.resolve_left (Nat.succ_ne_zero left)
    rw [termAt, opened, Halt.ok_bind]
    dsimp only
    rw [if_pos again]

/-- The addresses of the structures a walk is inside, innermost first. -/
def openings (current : Frame) (parents : List Frame) : List Nat :=
  current.header :: parents.map (·.header)

/-- Read the elements to come in a frame, then those in its parents. -/
def finish (h : Heap) (symbols : Symbols) (current : Frame) (parents : List Frame) :
    Except Halt Term := do
  let ts ← current.pending.mapM
    (h.termAt symbols (maxDepth - parents.length) (openings current parents))
  let term := Term.array (current.done.reverse ++ ts)
  match parents with
  | [] => return term
  | ⟨header, done, cs⟩ :: parents => h.finish symbols ⟨header, term :: done, cs⟩ parents

/-- The set holds the headers of the open frames, each of which is open once. -/
structure Tracks (opens : Std.TreeSet Nat) (current : Frame) (parents : List Frame) : Prop where
  nodup : (openings current parents).Nodup
  mem_iff : ∀ a, a ∈ opens ↔ a ∈ openings current parents

theorem Tracks.single (a : Nat) (done : List Term) (cs : List Cell) :
    Tracks (.ofList [a]) ⟨a, done, cs⟩ [] where
  nodup := List.nodup_singleton a
  mem_iff b := by simpa [openings] using eq_comm

theorem Tracks.read {opens : Std.TreeSet Nat} {header : Nat} {done done' : List Term}
    {cs cs' : List Cell} {parents : List Frame} (tracks : Tracks opens ⟨header, done, cs⟩ parents) :
    Tracks opens ⟨header, done', cs'⟩ parents := ⟨tracks.nodup, tracks.mem_iff⟩

theorem Tracks.opened {opens : Std.TreeSet Nat} {a : Nat} {current : Frame} {done : List Term}
    {cs : List Cell} {parents : List Frame} (tracks : Tracks opens current parents)
    (new : a ∉ opens) : Tracks (opens.insert a) ⟨a, done, cs⟩ (current :: parents) where
  nodup := List.nodup_cons.mpr ⟨(tracks.mem_iff a).not.mp new, tracks.nodup⟩
  mem_iff b := by
    rw [Std.TreeSet.mem_insert, tracks.mem_iff, Std.LawfulEqCmp.compare_eq_iff_eq, eq_comm]
    exact List.mem_cons.symm

theorem Tracks.closed {opens : Std.TreeSet Nat} {current parent : Frame} {parents : List Frame}
    (tracks : Tracks opens current (parent :: parents)) :
    Tracks (opens.erase current.header) parent parents := by
  obtain ⟨once, others⟩ := List.nodup_cons.mp tracks.nodup
  refine ⟨others, fun b => ?_⟩
  rw [Std.TreeSet.mem_erase, tracks.mem_iff, ne_eq, Std.LawfulEqCmp.compare_eq_iff_eq, openings,
    List.mem_cons]
  constructor
  · rintro ⟨other, same | inside⟩
    · exact absurd same.symm other
    · exact inside
  · intro inside
    exact ⟨fun same => once (same ▸ inside), .inr inside⟩

theorem finish_nil {header header' : Nat} {done done' : List Term} {cs : List Cell}
    {parents : List Frame} :
    h.finish symbols ⟨header, done, []⟩ (⟨header', done', cs⟩ :: parents) =
      h.finish symbols ⟨header', .array done.reverse :: done', cs⟩ parents := by
  rw [finish.eq_def]
  simp only [List.mapM_nil, pure_bind, List.append_nil]

theorem finish_cons {header : Nat} {done : List Term} {c : Cell} {cs : List Cell}
    {parents : List Frame} :
    h.finish symbols ⟨header, done, c :: cs⟩ parents =
      h.termAt symbols (maxDepth - parents.length) (header :: parents.map (·.header)) c >>=
        fun t => h.finish symbols ⟨header, t :: done, cs⟩ parents := by
  rw [finish.eq_def]
  simp only [openings, List.mapM_cons, bind_assoc, pure_bind]
  refine congrArg _ (funext fun t => ?_)
  rw [finish.eq_def]
  simp only [openings, List.reverse_cons, List.append_assoc, List.cons_append, List.nil_append]

theorem walk_eq_finish {opens : Std.TreeSet Nat} {current : Frame} {parents : List Frame}
    (tracks : Tracks opens current parents) (shallow : parents.length ≤ maxDepth) :
    h.walk symbols opens current parents = h.finish symbols current parents := by
  fun_induction h.walk symbols opens current parents with
  | case1 opens header done =>
    rw [finish.eq_def]
    simp only [List.mapM_nil, pure_bind, List.append_nil]
    rfl
  | case2 opens header done term header' done' cs parents ih =>
    rw [finish_nil]
    simpa [term] using ih tracks.closed.read (by simp at shallow; omega)
  | case3 opens parents header done c cs e opened =>
    rw [finish_cons, termAt_error opened]
    rfl
  | case4 opens parents header done c cs t opened ih =>
    rw [finish_cons, termAt_leaf opened, ih tracks.read shallow]
    rfl
  | case5 opens parents header done c cs a elements opened inner ih =>
    obtain ⟨room, new⟩ := inner
    have outside : a ∉ header :: parents.map (·.header) := (tracks.mem_iff a).not.mp new
    have left : maxDepth - parents.length = maxDepth - (parents.length + 1) + 1 := by omega
    rw [finish_cons, left, termAt_block opened outside, ih (tracks.read.opened new) room,
      finish.eq_def]
    simp only [openings, List.map_cons, List.length_cons, List.reverse_nil, List.nil_append,
      bind_assoc]
    rfl
  | case6 opens parents header done c cs a elements opened cut ih =>
    have closed : maxDepth - parents.length = 0 ∨ a ∈ header :: parents.map (·.header) := by
      rw [not_and_or, not_not] at cut
      exact cut.imp (by omega) (tracks.mem_iff a).mp
    rw [finish_cons, termAt_cut opened closed, ih tracks.read shallow]
    rfl

theorem readout_eq (h : Heap) (symbols : Symbols) (c : Cell) :
    h.readout symbols c = h.termAt symbols (maxDepth + 1) [] c := by
  unfold readout
  cases opened : h.openCell symbols c with
  | error e => rw [termAt_error opened]; rfl
  | ok o =>
    cases o with
    | leaf t => rw [termAt_leaf opened]; rfl
    | block a elements =>
      rw [termAt_block opened List.not_mem_nil, Halt.ok_bind]
      dsimp only
      rw [walk_eq_finish (.single ..) (Nat.zero_le _), finish.eq_def]
      rfl

end Heap

end HornMachine
