import HornMachine.Proofs.CellCode
import Mathlib.Data.Nat.ModEq

/-!
# Cells as 64-bit words

Encoding shifts a payload up by the three bits of the role, so a cell keeps 61 bits of it, and
equal cells are made of equal roles and of payloads that agree in these bits. Six is
the only low part that encoding does not write. Adding a shifted base to a word leaves its
low bits alone: a move adds to the payload as far as a cell keeps it, and moves add up
wherever the words wrap.
-/
namespace HornMachine

namespace Cell

/-! ### Shifts and masks -/

theorem shiftLeft_three (n : Int64) : n <<< 3 = n * 8 := by
  have amount : (3 : Int64).toBitVec.smod 64 = 3#64 := by decide
  apply Int64.toBitVec_inj.mp
  rw [Int64.toBitVec_shiftLeft, amount, Int64.toBitVec_mul, BitVec.shiftLeft_eq',
    BitVec.shiftLeft_eq_mul_twoPow]
  rfl

theorem toInt_shiftRight_three (n : Int64) : (n >>> 3).toInt = n.toInt / 8 := by
  have amount : (3 : Int64).toBitVec.smod 64 = 3#64 := by decide
  rw [← Int64.toInt_toBitVec, Int64.toBitVec_shiftRight, amount, BitVec.sshiftRight_eq',
    BitVec.toInt_sshiftRight, Int64.toInt_toBitVec, Int.shiftRight_eq_div_pow]
  rfl

theorem toInt_and_seven (n : Int64) : (n &&& 7).toInt = n.toInt % 8 := by
  have masked : (n.toBitVec &&& 7#64).toNat = n.toBitVec.toNat % 8 := by
    rw [BitVec.toNat_and]
    exact Nat.and_two_pow_sub_one_eq_mod _ 3
  rw [← Int64.toInt_toBitVec, ← Int64.toInt_toBitVec, Int64.toBitVec_and]
  change (n.toBitVec &&& 7#64).toInt = _
  rw [BitVec.toInt_eq_toNat_of_lt (by omega), masked, BitVec.toInt_eq_toNat_cond]
  split <;> omega

/-- A role has no bit in common with a shifted payload. -/
theorem shiftLeft_three_or (t : Tag) (n : Int64) :
    n <<< 3 ||| Int64.ofInt t.code = n <<< 3 + Int64.ofInt t.code := by
  have amount : (3 : Int64).toBitVec.smod 64 = 3#64 := by decide
  have apart (m : BitVec 64) (small : m.toNat < 2 ^ 3) : n.toBitVec <<< 3 &&& m = 0#64 := by
    apply BitVec.eq_of_getLsbD_eq
    intro i _
    rw [BitVec.getLsbD_and, BitVec.getLsbD_shiftLeft, BitVec.getLsbD_zero]
    by_cases low : i < 3
    · simp [low]
    · have power : 2 ^ 3 ≤ 2 ^ i := Nat.pow_le_pow_right (by decide) (Nat.le_of_not_lt low)
      have high : m.getLsbD i = false := Nat.testBit_lt_two_pow (small.trans_le power)
      rw [high, Bool.and_false]
  apply Int64.toBitVec_inj.mp
  rw [Int64.toBitVec_or, Int64.toBitVec_add, Int64.toBitVec_shiftLeft, amount,
    BitVec.shiftLeft_eq', Int64.toBitVec_ofInt]
  apply (BitVec.add_eq_or_of_and_eq_zero _ _ (apart _ _)).symm
  cases t <;> decide

theorem make_eq_or (t : Tag) (n : Int64) :
    make t n.toInt = ⟨n <<< 3 ||| Int64.ofInt t.code⟩ := by
  rw [shiftLeft_three_or, shiftLeft_three, make, Int64.ofInt_add, Int64.ofInt_mul,
    Int64.ofInt_toInt]
  rfl

theorem lowBits_eq_and (c : Cell) : (c.lowBits : Int) = (c.word &&& 7).toInt := by
  rw [toInt_and_seven, lowBits]
  omega

theorem payload_eq_shiftRight (c : Cell) : c.payload = (c.word >>> 3).toInt := by
  rw [toInt_shiftRight_three, payload]

theorem relocate_eq_ite (c : Cell) (base : UInt64) :
    c.relocate base.toNat =
      if c.word &&& 7 ≤ 2 then ⟨c.word + base.toInt64 <<< 3⟩ else c := by
  have ref : c.isInternalRef = true ↔ c.word &&& 7 ≤ 2 := by
    have bits := c.lowBits_eq_and
    have two : (2 : Int64).toInt = 2 := rfl
    rw [isInternalRef, decide_eq_true_iff, Int64.le_iff_toInt_le, two]
    omega
  have signed : Int64.ofInt base.toNat = base.toInt64 := by
    apply Int64.toBitVec_inj.mp
    rw [Int64.toBitVec_ofInt, BitVec.ofInt_natCast, UInt64.toBitVec_toInt64]
    exact BitVec.eq_of_toNat_eq (Nat.mod_eq_of_lt base.toNat_lt)
  rw [relocate, Int64.ofInt_mul, signed, shiftLeft_three]
  exact if_congr ref rfl rfl

/-! ### The codec -/

theorem make_bmod (tag : Tag) (n : Int) : make tag (n.bmod (2 ^ 61)) = make tag n := by
  have size : Int64.size = 2 ^ 64 := rfl
  have turns : n * 8 + tag.code =
      n.bmod (2 ^ 61) * 8 + tag.code + (2 ^ 64 : Nat) * n.bdiv (2 ^ 61) := by
    have := Int.bmod_eq_self_sub_mul_bdiv n (2 ^ 61)
    push_cast at this ⊢
    omega
  apply eq_of_toInt
  rw [make, make, Int64.toInt_ofInt, Int64.toInt_ofInt, size, turns, Int.add_mul_bmod_self_left]

theorem payload_make_bmod (tag : Tag) (n : Int) : (make tag n).payload = n.bmod (2 ^ 61) := by
  rw [← make_bmod]
  exact payload_make (Int.le_bmod (by decide)) (Int.bmod_lt (by decide))

theorem make_eq_make {t t' : Tag} {n n' : Int} :
    make t n = make t' n' ↔ t = t' ∧ (2 ^ 61 : Int) ∣ n - n' := by
  have agree : n.bmod (2 ^ 61) = n'.bmod (2 ^ 61) ↔ (2 ^ 61 : Int) ∣ n - n' := by
    rw [Int.bmod_eq_bmod_iff_bmod_sub_eq_zero, ← Int.dvd_iff_bmod_eq_zero]
    norm_num
  rw [← agree]
  constructor
  · intro same
    rw [← tag_make t n, ← payload_make_bmod t n, same, tag_make, payload_make_bmod]
    exact ⟨rfl, rfl⟩
  · rintro ⟨rfl, same⟩
    rw [← make_bmod, same, make_bmod]

/-- The malformed cells that are not made by encoding are those with a low part of 6. -/
theorem make_tag_payload {c : Cell} : make c.tag c.payload = c ↔ c.lowBits ≠ 6 := by
  constructor
  · intro same bits
    have malformed : c.tag = .malformed := by rw [tag, bits]; rfl
    rw [← same, malformed, lowBits_make] at bits
    cases bits
  · intro bits
    apply eq_of_lowBits_payload
    · have := c.lowBits_lt
      rw [lowBits_make, tag]
      interval_cases c.lowBits <;> first | rfl | exact absurd rfl bits
    · exact payload_make c.le_payload c.payload_lt

/-! ### Moves -/

theorem relocate_congr {a b : Nat} (same : a ≡ b [MOD 2 ^ 61]) (c : Cell) :
    c.relocate a = c.relocate b := by
  cases ref : c.isInternalRef with
  | false => rw [relocate_of_not_ref ref, relocate_of_not_ref ref]
  | true =>
    have words : (c.word.toInt + a * 8) % (2 ^ 64 : Nat) =
        (c.word.toInt + b * 8) % (2 ^ 64 : Nat) := by
      unfold Nat.ModEq at same
      omega
    apply eq_of_toInt
    rw [toInt_relocate ref, toInt_relocate ref, Int.bmod, words, Int.bmod]

theorem relocate_relocate_wrapping (c : Cell) (a b : UInt64) :
    (c.relocate a.toNat).relocate b.toNat = c.relocate (a + b).toNat := by
  rw [relocate_relocate, UInt64.toNat_add]
  exact relocate_congr ((Nat.mod_modEq _ _).of_dvd (pow_dvd_pow 2 (by decide))).symm c

theorem payload_relocate_bmod {c : Cell} (ref : c.isInternalRef = true) (base : Nat) :
    (c.relocate base).payload = (c.payload + base).bmod (2 ^ 61) := by
  have := c.lowBits_lt
  obtain ⟨turns, exact, lower, upper⟩ := exists_turns (c.payload * 8 + c.lowBits + base * 8)
  have kept := Int.bmod_eq_self_sub_mul_bdiv (c.payload + base) (2 ^ 61)
  have := Int.le_bmod (x := c.payload + base) (m := 2 ^ 61) (by decide)
  have := Int.bmod_lt (x := c.payload + base) (m := 2 ^ 61) (by decide)
  rw [payload, toInt_relocate ref, toInt_word]
  omega

end Cell

end HornMachine
