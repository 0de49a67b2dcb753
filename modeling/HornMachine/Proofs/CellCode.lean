import HornMachine.Cell
import Mathlib.Tactic.IntervalCases
import Mathlib.Tactic.Tauto

/-!
# The codec of cells

A word is its payload times eight plus its low part. Payloads in the signed
61-bit range survive encoding, and two cells that are not malformed are equal
when role and payload agree. Relocation keeps the role of every cell and adds up
over repeated moves, wrapping or not; where nothing wraps it adds to the address
of an internal reference.
-/
namespace HornMachine

theorem exists_turns (n : Int) :
    ∃ turns : Int, n.bmod (2 ^ 64) = n - 2 ^ 64 * turns ∧
      -2 ^ 63 ≤ n.bmod (2 ^ 64) ∧ n.bmod (2 ^ 64) < 2 ^ 63 := by
  exact ⟨n.bdiv (2 ^ 64), Int.bmod_eq_self_sub_mul_bdiv n (2 ^ 64), Int.le_bmod (by decide),
    Int.bmod_lt (by decide)⟩

theorem Tag.code_nonneg (t : Tag) : 0 ≤ t.code := by cases t <;> decide

theorem Tag.code_lt (t : Tag) : t.code < 8 := by cases t <;> decide

@[simp] theorem Tag.ofCode_code (t : Tag) : Tag.ofCode t.code.toNat = t := by
  cases t <;> rfl

namespace Cell

theorem lowBits_lt (c : Cell) : c.lowBits < 8 := by
  unfold lowBits
  omega

theorem toInt_word (c : Cell) : c.word.toInt = c.payload * 8 + c.lowBits := by
  unfold payload lowBits
  omega

theorem payload_lt (c : Cell) : c.payload < 2 ^ 60 := by
  have := c.word.toInt_lt
  unfold payload
  omega

theorem le_payload (c : Cell) : -2 ^ 60 ≤ c.payload := by
  have := c.word.le_toInt
  unfold payload
  omega

theorem eq_of_toInt {c d : Cell} (h : c.word.toInt = d.word.toInt) : c = d := by
  cases c
  cases d
  exact congrArg Cell.mk (Int64.toInt.inj h)

theorem eq_of_lowBits_payload {c d : Cell} (bits : c.lowBits = d.lowBits)
    (payload : c.payload = d.payload) : c = d := by
  apply eq_of_toInt
  rw [toInt_word, toInt_word, bits, payload]

theorem lowBits_eq_of_tag {c d : Cell} (sound : c.tag ≠ .malformed) (h : c.tag = d.tag) :
    c.lowBits = d.lowBits := by
  have hc := c.lowBits_lt
  have hd := d.lowBits_lt
  unfold tag at h sound
  interval_cases c.lowBits <;> interval_cases d.lowBits <;> simp_all [Tag.ofCode]

theorem eq_of_tag_payload {c d : Cell} (sound : c.tag ≠ .malformed) (tag : c.tag = d.tag)
    (payload : c.payload = d.payload) : c = d :=
  eq_of_lowBits_payload (lowBits_eq_of_tag sound tag) payload

theorem toInt_make {tag : Tag} {n : Int} (lower : -2 ^ 60 ≤ n) (upper : n < 2 ^ 60) :
    (make tag n).word.toInt = n * 8 + tag.code := by
  have := tag.code_nonneg
  have := tag.code_lt
  exact Int64.toInt_ofInt_of_le (by omega) (by omega)

theorem payload_make {tag : Tag} {n : Int} (lower : -2 ^ 60 ≤ n) (upper : n < 2 ^ 60) :
    (make tag n).payload = n := by
  have := tag.code_nonneg
  have := tag.code_lt
  rw [payload, toInt_make lower upper]
  omega

theorem lowBits_make (t : Tag) (n : Int) : (make t n).lowBits = t.code.toNat := by
  have := t.code_nonneg
  have := t.code_lt
  obtain ⟨turns, exact, -, -⟩ := exists_turns (n * 8 + t.code)
  have word : (make t n).word.toInt = (n * 8 + t.code).bmod (2 ^ 64) := Int64.toInt_ofInt
  rw [lowBits, word, exact]
  omega

@[simp] theorem tag_make (t : Tag) (n : Int) : (make t n).tag = t := by
  rw [tag, lowBits_make, Tag.ofCode_code]

theorem addr_make {tag : Tag} {a : Nat} (small : a < 2 ^ 60) : (make tag a).addr = a := by
  rw [addr, payload_make (by omega) (by omega)]
  simp

theorem make_inj {t : Tag} {a b : Nat} (small : a < 2 ^ 60) (small' : b < 2 ^ 60)
    (same : make t a = make t b) : a = b := by
  rw [← addr_make small, same, addr_make small']

theorem payload_eq_addr {c : Cell} (small : c.addr < 2 ^ 60) : c.payload = c.addr := by
  have := c.le_payload
  have := c.payload_lt
  unfold addr at small ⊢
  split at small <;> split <;> omega

theorem addr_eq_of_payload {c : Cell} {a : Nat} (h : c.payload = a) : c.addr = a := by
  rw [addr, h]
  simp

theorem eq_make {c : Cell} {tag : Tag} {a : Nat} (sound : tag ≠ .malformed) (ht : c.tag = tag)
    (ha : c.addr = a) (small : a < 2 ^ 60) : c = make tag a := by
  apply eq_of_tag_payload (by rwa [ht]) (by rw [ht, tag_make])
  rw [payload_eq_addr (ha ▸ small), payload_make (by omega) (by omega), ha]

/-! ### Roles -/

theorem isVar_iff {c : Cell} : c.isVar = true ↔ c.tag = .unboundVar ∨ c.tag = .varRef := by
  have := c.lowBits_lt
  simp only [isVar, tag, decide_eq_true_eq]
  interval_cases c.lowBits <;> simp [Tag.ofCode]

theorem isInternalRef_iff {c : Cell} :
    c.isInternalRef = true ↔ c.isVar = true ∨ c.tag = .structRef := by
  have := c.lowBits_lt
  simp only [isInternalRef, isVar, tag, decide_eq_true_eq]
  interval_cases c.lowBits <;> simp [Tag.ofCode]

theorem isVar_of_tag {c : Cell} (h : c.tag = .unboundVar ∨ c.tag = .varRef) : c.isVar = true :=
  isVar_iff.mpr h

theorem not_isVar_of_tag {c : Cell} {t : Tag} (h : c.tag = t) (hu : t ≠ .unboundVar)
    (hr : t ≠ .varRef) : c.isVar = false := by
  rw [Bool.eq_false_iff]
  intro isVar
  rcases isVar_iff.mp isVar with e | e
  · exact hu (h.symm.trans e)
  · exact hr (h.symm.trans e)

theorem var_isVar (a : Nat) : (var a).isVar = true := isVar_of_tag (.inl (tag_make ..))

@[simp] theorem tag_var (a : Nat) : (var a).tag = .unboundVar := tag_make ..
@[simp] theorem tag_varRef (a : Nat) : (varRef a).tag = .varRef := tag_make ..
@[simp] theorem tag_structRef (a : Nat) : (structRef a).tag = .structRef := tag_make ..
@[simp] theorem tag_constant (a : Nat) : (constant a).tag = .constant := tag_make ..
@[simp] theorem tag_number (n : Int) : (number n).tag = .number := tag_make ..
@[simp] theorem tag_header (n : Nat) : (header n).tag = .arrayHeader := tag_make ..

theorem header_isVar (n : Nat) : (header n).isVar = false :=
  not_isVar_of_tag (tag_header n) (by decide) (by decide)

theorem addr_var {a : Nat} (small : a < 2 ^ 60) : (var a).addr = a := addr_make small
theorem addr_varRef {a : Nat} (small : a < 2 ^ 60) : (varRef a).addr = a := addr_make small
theorem addr_structRef {a : Nat} (small : a < 2 ^ 60) : (structRef a).addr = a :=
  addr_make small
theorem addr_header {n : Nat} (small : n < 2 ^ 60) : (header n).addr = n := addr_make small

/-! ### Relocation -/

theorem relocate_of_not_ref {c : Cell} (h : c.isInternalRef = false) (base : Nat) :
    c.relocate base = c := by
  simp [relocate, h]

theorem relocate_of_tag {c : Cell}
    (tag : c.tag = .constant ∨ c.tag = .number ∨ c.tag = .arrayHeader) (base : Nat) :
    c.relocate base = c := by
  apply relocate_of_not_ref
  rw [Bool.eq_false_iff]
  intro ref
  rw [isInternalRef_iff, isVar_iff] at ref
  rcases tag with tag | tag | tag <;> simp [tag] at ref

theorem toInt_relocate {c : Cell} (h : c.isInternalRef = true) (base : Nat) :
    (c.relocate base).word.toInt = (c.word.toInt + base * 8).bmod (2 ^ 64) := by
  simp only [relocate, h, ↓reduceIte, Int64.toInt_add, Int64.toInt_ofInt, Int64.size]
  exact Int.add_bmod_bmod

@[simp] theorem lowBits_relocate (c : Cell) (base : Nat) :
    (c.relocate base).lowBits = c.lowBits := by
  cases h : c.isInternalRef with
  | false => rw [relocate_of_not_ref h]
  | true =>
    obtain ⟨turns, exact, -, -⟩ := exists_turns (c.word.toInt + base * 8)
    rw [lowBits, toInt_relocate h, exact, lowBits]
    omega

@[simp] theorem tag_relocate (c : Cell) (base : Nat) : (c.relocate base).tag = c.tag := by
  rw [tag, tag, lowBits_relocate]

@[simp] theorem isVar_relocate (c : Cell) (base : Nat) : (c.relocate base).isVar = c.isVar := by
  rw [isVar, isVar, lowBits_relocate]

@[simp] theorem isInternalRef_relocate (c : Cell) (base : Nat) :
    (c.relocate base).isInternalRef = c.isInternalRef := by
  rw [isInternalRef, isInternalRef, lowBits_relocate]

theorem relocate_relocate (c : Cell) (a b : Nat) :
    (c.relocate a).relocate b = c.relocate (a + b) := by
  cases h : c.isInternalRef with
  | false => rw [relocate_of_not_ref h, relocate_of_not_ref h, relocate_of_not_ref h]
  | true =>
    apply eq_of_toInt
    rw [toInt_relocate (by simpa using h), toInt_relocate h, toInt_relocate h,
      Int.bmod_add_bmod]
    push_cast
    rw [Int.add_mul, Int.add_assoc]

theorem map_relocate_relocate (cs : List Cell) (a b : Nat) :
    (cs.map (·.relocate a)).map (·.relocate b) = cs.map (·.relocate (a + b)) := by
  rw [List.map_map]
  apply List.map_congr_left
  intro c _
  exact relocate_relocate c a b

theorem relocate_inj {c d : Cell} {base : Nat} (same : c.relocate base = d.relocate base) :
    c = d := by
  have bits : c.lowBits = d.lowBits := by
    rw [← lowBits_relocate c base, same, lowBits_relocate]
  cases h : c.isInternalRef with
  | false =>
    have other : d.isInternalRef = false := by rwa [isInternalRef, ← bits, ← isInternalRef]
    rwa [relocate_of_not_ref h, relocate_of_not_ref other] at same
  | true =>
    have other : d.isInternalRef = true := by rwa [isInternalRef, ← bits, ← isInternalRef]
    simp only [relocate, h, other, ↓reduceIte, mk.injEq, Int64.add_left_inj] at same
    exact congrArg mk same

theorem payload_relocate {c : Cell} (h : c.isInternalRef = true) {base : Nat}
    (upper : c.payload + base < 2 ^ 60) : (c.relocate base).payload = c.payload + base := by
  have := c.le_payload
  have := c.lowBits_lt
  obtain ⟨turns, exact, lower, upper'⟩ := exists_turns (c.payload * 8 + c.lowBits + base * 8)
  rw [payload, toInt_relocate h, toInt_word]
  omega

theorem addr_relocate {c : Cell} (h : c.isInternalRef = true) {base : Nat}
    (upper : c.addr + base < 2 ^ 60) : (c.relocate base).addr = c.addr + base := by
  have payload := payload_eq_addr (c := c) (by omega)
  apply addr_eq_of_payload
  rw [payload_relocate h (by omega), payload]
  push_cast
  rfl

theorem relocate_make {tag : Tag} (ref : tag = .unboundVar ∨ tag = .varRef ∨ tag = .structRef)
    {a base : Nat} (small : a + base < 2 ^ 60) :
    (make tag a).relocate base = make tag ↑(a + base) := by
  have sound : tag ≠ .malformed := by rcases ref with rfl | rfl | rfl <;> decide
  have internal : (make tag a).isInternalRef = true := by
    rw [isInternalRef_iff, isVar_iff, tag_make]
    tauto
  have addr : (make tag a).addr = a := addr_make (by omega)
  apply eq_make sound (by simp) _ small
  rw [addr_relocate internal (by omega), addr]

theorem relocate_var {a base : Nat} (small : a + base < 2 ^ 60) :
    (var a).relocate base = var (a + base) := relocate_make (.inl rfl) small

theorem relocate_structRef {a base : Nat} (small : a + base < 2 ^ 60) :
    (structRef a).relocate base = structRef (a + base) := relocate_make (.inr (.inr rfl)) small

/-- A moved reference that lands on `a + base` came from `a`, wrapping or not. -/
theorem payload_of_addr_relocate {c : Cell} (h : c.isInternalRef = true) {a base : Nat}
    (landed : (c.relocate base).addr = a + base) (small : a + base < 2 ^ 60) :
    c.payload = a := by
  have moved := payload_eq_addr (c := c.relocate base) (by omega)
  have lower := c.le_payload
  have upper := c.payload_lt
  have bits := c.lowBits_lt
  obtain ⟨turns, exact, -, -⟩ := exists_turns (c.payload * 8 + c.lowBits + base * 8)
  rw [landed, payload, toInt_relocate h, toInt_word] at moved
  omega

end Cell

end HornMachine
