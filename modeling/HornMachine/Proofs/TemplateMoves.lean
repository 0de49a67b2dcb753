import HornMachine.Proofs.CellWords
import HornMachine.Proofs.LinkedCode
import HornMachine.Proofs.Resolving

/-!
# Copies of a template

A clause is moved twice before it is run: its code is relocated to the base of its template when
it is stored, and the template by a shift when it is copied. Moves of cells add up, so
a copy is the code moved once, to the address where the copy starts, and its head and its
goals are those of the code moved there.
-/
namespace HornMachine

/-- The template of a clause lies on `k` as it was stored on `load`. -/
structure Clause.Intact (c : Clause) (load k : Heap) : Prop where
  placed : c.Placed k.top
  cell : ∀ i, i < c.len → k.get? (c.base + i) = load.get? (c.base + i)

theorem ClauseCode.Copied.exists_copyRelocated {code : ClauseCode} {h load k : Heap}
    (stored : code.Copied code.size h load)
    (intact : ∀ i, i < code.size → k.get? (h.top + i) = load.get? (h.top + i)) {start len : Nat}
    (le : start + len ≤ code.size) (inside : h.top + start + len ≤ k.top)
    (room : k.top + len < 2 ^ 60) (shift : Nat) :
    ∃ k', k.copyRelocated shift (h.top + start) len = .ok k' ∧
      k'.toList = k.toList ++
        ((code.cells.toList.drop start).take len).map (·.relocate (h.top + shift)) := by
  obtain ⟨k', copied⟩ := Heap.exists_copyRelocated inside shift room
  have moved := stored.map_span (fun i _ short => intact i (short.trans_le le)) le inside shift
  refine ⟨k', copied, ?_⟩
  rw [← moved]
  exact (Heap.copyRelocated_eq_ok inside).mp copied

namespace Clause

variable {code : ClauseCode} {ref : Cell} {body : List Cell} {positions : Nat} {c : Clause}
  {h load k : Heap}

theorem exists_copyHead (stored : Clause.store h code ref body positions = .ok (c, load))
    (intact : c.Intact load k) (room : k.top + code.headLen < 2 ^ 60) (shift : Nat) :
    ∃ k', c.copyHead k shift = .ok (ref.relocate (c.base + shift), k') ∧
      k'.toList = k.toList ++
        (code.cells.toList.take code.headLen).map (·.relocate (c.base + shift)) := by
  obtain ⟨template, keys, -, rfl⟩ := Clause.store_eq_ok.mp stored
  have short : code.headLen ≤ code.size := intact.placed.head
  have inside : h.top + code.size ≤ k.top := intact.placed.inside
  have le : 0 + code.headLen ≤ code.size := by omega
  have inside' : h.top + 0 + code.headLen ≤ k.top := by omega
  obtain ⟨k', copied, cells⟩ := template.exists_copyRelocated intact.cell le inside' room shift
  rw [Nat.add_zero] at copied
  refine ⟨k', ?_, cells⟩
  unfold copyHead
  dsimp only
  rw [copied, Cell.relocate_relocate]
  rfl

theorem exists_copyBody (stored : Clause.store h code ref body positions = .ok (c, load))
    (intact : c.Intact load k) (room : k.top + (code.size - code.headLen) < 2 ^ 60)
    (shift : Nat) :
    ∃ k', c.copyBody k shift = .ok (body.map (·.relocate (c.base + shift)), k') ∧
      k'.toList = k.toList ++
        (code.cells.toList.drop code.headLen).map (·.relocate (c.base + shift)) := by
  obtain ⟨template, keys, -, rfl⟩ := Clause.store_eq_ok.mp stored
  have short : code.headLen ≤ code.size := intact.placed.head
  have inside : h.top + code.size ≤ k.top := intact.placed.inside
  have le : code.headLen + (code.size - code.headLen) ≤ code.size := by omega
  have inside' : h.top + code.headLen + (code.size - code.headLen) ≤ k.top := by omega
  obtain ⟨k', copied, cells⟩ := template.exists_copyRelocated intact.cell le inside' room shift
  have whole : (code.cells.toList.drop code.headLen).length ≤ code.size - code.headLen := by
    rw [List.length_drop]
    exact Nat.le_refl _
  rw [List.take_of_length_le whole] at cells
  refine ⟨k', ?_, cells⟩
  unfold copyBody
  dsimp only
  rw [copied, Cell.map_relocate_relocate]
  rfl

end Clause

namespace Cell

/-- Encoding shifts the payload up and sets the role below it; decoding masks and shifts.
The role survives and the payload comes back as its residue modulo `2^61` between `-2^60` and
`2^60 - 1`, so cells are equal exactly if their roles are and their payloads agree modulo
`2^61`. Every word is the code of its own role and payload, unless its low bits are 6.

A move adds the shifted base to the word of a variable or a structure reference and leaves
every other word alone. It keeps the role, it moves the payload modulo `2^61`, and two moves
are one by the sum of the bases, wrapping or not. So a stored clause that is copied with a
shift comes out as its code moved once, to the address where the copy starts. -/
theorem codec_moves :
    (∀ (t : Tag) (n : Int64), make t n.toInt = ⟨n <<< 3 ||| Int64.ofInt t.code⟩) ∧
    (∀ (t : Tag) (n : Int), (make t n).tag = t ∧ (make t n).payload = n.bmod (2 ^ 61)) ∧
    (∀ (t t' : Tag) (n n' : Int),
      make t n = make t' n' ↔ t = t' ∧ (2 ^ 61 : Int) ∣ n - n') ∧
    (∀ c : Cell, (c.lowBits : Int) = (c.word &&& 7).toInt ∧
      c.payload = (c.word >>> 3).toInt ∧ (make c.tag c.payload = c ↔ c.lowBits ≠ 6)) ∧
    (∀ (c : Cell) (a b : UInt64),
      c.relocate a.toNat = (if c.word &&& 7 ≤ 2 then ⟨c.word + a.toInt64 <<< 3⟩ else c) ∧
      (c.relocate a.toNat).relocate b.toNat = c.relocate (a + b).toNat) ∧
    (∀ (c : Cell) (a b : Nat), (c.relocate a).relocate b = c.relocate (a + b) ∧
      (c.relocate a).tag = c.tag ∧
      if c.tag = .unboundVar ∨ c.tag = .varRef ∨ c.tag = .structRef
        then (c.relocate a).payload = (c.payload + a).bmod (2 ^ 61)
        else c.relocate a = c) ∧
    (∀ (code : ClauseCode) (ref : Cell) (body : List Cell) (positions : Nat) (h load : Heap)
      (c : Clause), Clause.store h code ref body positions = .ok (c, load) →
      load.toList = h.toList ++ code.cells.toList.map (·.relocate c.base) ∧
      ∀ k, c.Intact load k → ∀ shift,
        (k.top + code.headLen < 2 ^ 60 →
          ∃ k', c.copyHead k shift = .ok (ref.relocate (c.base + shift), k') ∧
            k'.toList = k.toList ++
              (code.cells.toList.take code.headLen).map (·.relocate (c.base + shift))) ∧
        (k.top + (code.size - code.headLen) < 2 ^ 60 →
          ∃ k', c.copyBody k shift = .ok (body.map (·.relocate (c.base + shift)), k') ∧
            k'.toList = k.toList ++
              (code.cells.toList.drop code.headLen).map (·.relocate (c.base + shift)))) := by
  refine ⟨make_eq_or, fun t n => ⟨tag_make t n, payload_make_bmod t n⟩,
    fun _ _ _ _ => make_eq_make,
    fun c => ⟨c.lowBits_eq_and, c.payload_eq_shiftRight, make_tag_payload⟩,
    fun c a b => ⟨c.relocate_eq_ite a, c.relocate_relocate_wrapping a b⟩, ?_, ?_⟩
  · intro c a b
    refine ⟨c.relocate_relocate a b, c.tag_relocate a, ?_⟩
    have refs : c.isInternalRef = true ↔
        c.tag = .unboundVar ∨ c.tag = .varRef ∨ c.tag = .structRef := by
      rw [isInternalRef_iff, isVar_iff, or_assoc]
    split
    · next ref => exact payload_relocate_bmod (refs.mpr ref) a
    · next other => exact relocate_of_not_ref (eq_false_of_ne_true (mt refs.mp other)) a
  · intro code ref body positions h load c stored
    obtain ⟨template, keys, -, same⟩ := Clause.store_eq_ok.mp stored
    have base : c.base = h.top := by rw [same]
    refine ⟨base ▸ ClauseCode.copied_size.mp template, fun k intact shift => ⟨?_, ?_⟩⟩
    · exact fun room => Clause.exists_copyHead stored intact room shift
    · exact fun room => Clause.exists_copyBody stored intact room shift

end Cell

/-- The rule `p(X) if p(X)`, with 0 for `p`. -/
def loopingRule : ClauseCode :=
  ⟨#[.header 2, .constant 0, .var 2, .header 2, .constant 0, .varRef 2],
    [.structRef 0, .structRef 3], 3⟩

theorem Cell.codec_moves_loopingRule :
    ∃ c load k k',
      Clause.store ⟨#[.constant 1, .number (-1)], by decide⟩ loopingRule (.structRef 0)
        [.structRef 3] 3 = .ok (c, load) ∧
      load.toList = [.constant 1, .number (-1), .header 2, .constant 0, .var 4, .header 2,
        .constant 0, .varRef 4] ∧
      c.copyHead load 6 = .ok (.structRef 8, k) ∧
      k.toList = load.toList ++ [.header 2, .constant 0, .var 10] ∧
      c.copyBody k 6 = .ok ([.structRef 11], k') ∧
      k'.toList = k.toList ++ [.header 2, .constant 0, .varRef 10] := by
  have checks : (Clause.store ⟨#[.constant 1, .number (-1)], by decide⟩ loopingRule
      (.structRef 0) [.structRef 3] 3).toOption.any (fun r =>
        decide (r.1.base = 2 ∧ r.1.len = 6 ∧ r.1.headLen = 3 ∧ r.2.top = 8)) = true := by
    decide +kernel
  obtain ⟨⟨c, load⟩, stored, checks⟩ := exists_ok_of_any checks
  obtain ⟨base, len, headLen, top⟩ := of_decide_eq_true checks
  dsimp only at base len headLen top
  obtain ⟨loaded, copies⟩ := codec_moves.2.2.2.2.2.2 _ _ _ _ _ _ _ stored
  have intact : c.Intact load load := ⟨⟨by omega, by omega⟩, fun _ _ => rfl⟩
  have head : loopingRule.headLen = 3 := by decide
  have size : loopingRule.size = 6 := rfl
  obtain ⟨k, copied, cells⟩ := (copies load intact 6).1 (by omega)
  have above : k.top = load.top + 3 := by
    rw [Heap.top_append cells, head]
    rfl
  have intact' : c.Intact load k := by
    refine ⟨⟨by omega, by omega⟩, fun i short => ?_⟩
    rw [Heap.get?_append cells, if_pos (by omega)]
  obtain ⟨k', copied', cells'⟩ := (copies k intact' 6).2 (by omega)
  rw [base] at loaded copied cells copied' cells'
  rw [head] at cells cells'
  refine ⟨c, load, k, k', stored, ?_, ?_, ?_, ?_, ?_⟩
  · rw [loaded]
    decide +kernel
  · exact copied
  · exact cells
  · exact copied'
  · exact cells'

end HornMachine
