import HornMachine.Sentence.Reader
import Mathlib.Algebra.Group.Int.Defs
import Mathlib.Algebra.Group.Nat.Defs

/-!
# The format of sentences

The words, elements and sentences that a text can say. A name is either a single sign
or a word over letters, digits and `_`, and the first character of a word and the size
of its value, if it is a numeral, decide between variables, numbers and constants.
-/
namespace HornMachine

/-- Decimal digits with the value `n`, with leading zeros or without. -/
structure Numeral (text : List Char) (n : Nat) : Prop where
  nonempty : text ≠ []
  digit : ∀ c ∈ text, c.isDigit = true
  value : Nat.ofDigitChars 10 text 0 = n

/-- The words that divide sentences or mark equations. -/
def reserved : List String := ["if", "and", "holds", "lists", "is"]

/-- A word that starts with a capital or `_`. -/
def VariableName (name : String) : Prop :=
  ∃ c cs, name.toList = c :: cs ∧ (c.isUpper = true ∨ c = '_') ∧
    ∀ d ∈ cs, Reader.isWordChar d = true

/-- A single sign, or a word that is neither reserved nor a number. -/
inductive ConstantName (name : String) : Prop
  | sign (c : Char) (single : name.toList = [c]) (visible : Reader.isBlank c = false)
      (apart : Reader.isWordChar c = false) (going : c ≠ '.')
  | word (c : Char) (cs : List Char) (split : name.toList = c :: cs)
      (first : c.isLower = true ∨ c.isDigit = true) (inside : ∀ d ∈ cs, Reader.isWordChar d = true)
      (free : name ∉ reserved) (large : ∀ n, Numeral name.toList n → 2 ^ 60 ≤ n)

/-- The words that are written as one token. -/
def Word.WellFormed : Word → Prop
  | .const name => ConstantName name
  | .number n => 0 ≤ n ∧ n < 2 ^ 60
  | .var name => VariableName name
  | .holds _ => False
  | .lists _ => False

/-- The words an element can start with. -/
def Word.Leads (w : Word) : Prop :=
  w.WellFormed ∨ ∃ m name, w = Marker.word name m ∧ VariableName name

def Element.WellFormed (e : Element) : Prop :=
  ∃ w ws, e = w :: ws ∧ w.Leads ∧ ∀ v ∈ ws, v.WellFormed

structure Sentence.WellFormed (s : Sentence) : Prop where
  nonempty : s ≠ []
  element : ∀ e ∈ s, Element.WellFormed e

theorem Element.WellFormed.ne_nil {e : Element} (format : e.WellFormed) : e ≠ [] := by
  obtain ⟨w, ws, rfl, -⟩ := format
  exact List.cons_ne_nil w ws

theorem Element.WellFormed.snoc {e : Element} {w : Word} (start : e ≠ [] → e.WellFormed)
    (word : w.WellFormed) : WellFormed (e ++ [w]) := by
  cases e with
  | nil => exact ⟨w, [], rfl, .inl word, nofun⟩
  | cons v ws =>
    obtain ⟨u, us, same, leads, others⟩ := start (List.cons_ne_nil v ws)
    obtain ⟨rfl, rfl⟩ := List.cons.inj same
    refine ⟨v, ws ++ [w], rfl, leads, fun x member => ?_⟩
    rcases List.mem_append.mp member with old | new
    · exact others x old
    · rwa [List.mem_singleton.mp new]

theorem numeral_repr (n : Nat) : Numeral n.repr.toList n := by
  rw [Nat.toList_repr]
  exact ⟨Nat.toDigits_ne_nil, fun c member => Nat.isDigit_of_mem_toDigits (by decide) (by decide)
    member, Nat.ofDigitChars_ten_toDigits⟩

theorem Numeral.unique {text : List Char} {m n : Nat} (left : Numeral text m)
    (right : Numeral text n) : m = n :=
  left.value.symm.trans right.value

namespace Lexeme

def text : Lexeme → List Char
  | .stop => ['.']
  | .word text => text
  | .sign c => [c]

/-- What can be met in a text. -/
def Valid : Lexeme → Prop
  | .stop => True
  | .word text => text ≠ [] ∧ ∀ c ∈ text, Reader.isWordChar c = true
  | .sign c => Reader.isBlank c = false ∧ Reader.isWordChar c = false ∧ c ≠ '.'

end Lexeme

namespace Reader

/-! ### Characters -/

theorem isWordChar_iff {c : Char} :
    isWordChar c = true ↔ (c.isUpper = true ∨ c = '_') ∨ c.isLower = true ∨ c.isDigit = true := by
  have cases : isWordChar c = (((c.isUpper || c.isLower) || c.isDigit) || decide (c = '_')) := rfl
  simp only [cases, Bool.or_eq_true, decide_eq_true_eq]
  grind

theorem toNat_cases (c : Char) :
    ((c.isUpper = true ∨ c = '_') ↔ 65 ≤ c.toNat ∧ c.toNat ≤ 90 ∨ c.toNat = 95) ∧
    (c.isLower = true ↔ 97 ≤ c.toNat ∧ c.toNat ≤ 122) ∧
    (c.isDigit = true ↔ 48 ≤ c.toNat ∧ c.toNat ≤ 57) := by
  have upper : c.isUpper = decide ('A'.val ≤ c.val ∧ c.val ≤ 'Z'.val) := rfl
  have lower : c.isLower = (decide ('a'.val ≤ c.val) && decide (c.val ≤ 'z'.val)) := rfl
  have digit : c.isDigit = (decide ('0'.val ≤ c.val) && decide (c.val ≤ '9'.val)) := rfl
  simp [upper, lower, digit, UInt32.le_iff_toNat_le, ← Char.toNat_val, ← Char.toNat_inj]

theorem not_capital_iff {c : Char} (inside : isWordChar c = true) :
    ¬ (c.isUpper = true ∨ c = '_') ↔ c.isLower = true ∨ c.isDigit = true := by
  obtain ⟨upper, lower, digit⟩ := toNat_cases c
  rw [isWordChar_iff, upper, lower, digit] at inside
  rw [upper, lower, digit]
  omega

theorem isWordChar_of_isBlank {c : Char} (blank : isBlank c = true) : isWordChar c = false := by
  obtain ⟨upper, lower, digit⟩ := toNat_cases c
  rw [Bool.eq_false_iff, ne_eq, isWordChar_iff, upper, lower, digit]
  simp only [isBlank, UInt32.le_iff_toNat_le, ← UInt32.toNat_inj, Char.toNat_val, Bool.or_eq_true,
    Bool.and_eq_true, decide_eq_true_eq, UInt32.reduceToNat] at blank
  omega

/-! ### Words -/

theorem decimal?_eq_some {text : List Char} {n : Nat} (any : text ≠ []) :
    decimal? text = some n ↔ Numeral text n := by
  have value : text.foldl (fun n c => n * 10 + (c.toNat - '0'.toNat)) 0 =
      Nat.ofDigitChars 10 text 0 := by
    rw [Nat.ofDigitChars_eq_foldl]
    simp only [Nat.mul_comm]
  unfold decimal?
  rw [value]
  constructor
  · intro e
    split at e
    · next all => exact ⟨any, List.all_eq_true.mp all, Option.some.inj e⟩
    · cases e
  · rintro ⟨-, digit, value⟩
    rw [if_pos (List.all_eq_true.mpr digit), value]

theorem classify_variable {name : String} (capital : VariableName name) :
    classify name.toList = .var name := by
  obtain ⟨c, cs, split, first, -⟩ := capital
  rw [split, classify, ← split, String.ofList_toList]
  simp [first]

theorem classify_cons {c : Char} (cs : List Char) (first : ¬ (c.isUpper = true ∨ c = '_')) :
    (∃ n, Numeral (c :: cs) n ∧ n < 2 ^ 60 ∧ classify (c :: cs) = .number n) ∨
    (∀ n, Numeral (c :: cs) n → 2 ^ 60 ≤ n) ∧
      classify (c :: cs) = .const (String.ofList (c :: cs)) := by
  have numeral (n : Nat) := @decimal?_eq_some (c :: cs) n (List.cons_ne_nil c cs)
  unfold classify
  dsimp only
  rw [if_neg (by simpa using first)]
  cases value : decimal? (c :: cs) with
  | none =>
    refine .inr ⟨fun n digits => ?_, rfl⟩
    rw [(numeral n).mpr digits] at value
    cases value
  | some n =>
    have digits := (numeral n).mp value
    by_cases small : n < numberBound
    · exact .inl ⟨n, digits, small, if_pos small⟩
    · refine .inr ⟨fun m digits' => ?_, if_neg small⟩
      rw [← digits.unique digits']
      exact Nat.le_of_not_lt small

theorem classify_number {text : List Char} {n : Nat} (digits : Numeral text n)
    (small : n < 2 ^ 60) : classify text = .number n := by
  obtain ⟨c, cs, rfl⟩ := List.exists_cons_of_ne_nil digits.nonempty
  have digit := digits.digit c (List.mem_cons_self ..)
  have inside : isWordChar c = true := isWordChar_iff.mpr (.inr (.inr digit))
  rcases classify_cons cs ((not_capital_iff inside).mpr (.inr digit)) with
    ⟨m, digits', -, same⟩ | ⟨large, -⟩
  · rw [same, digits'.unique digits]
  · exact absurd small (Nat.not_lt_of_le (large n digits))

theorem mem_reserved {text : List Char} :
    String.ofList text ∈ reserved ↔ text = ['i', 'f'] ∨ text = ['a', 'n', 'd'] ∨
      text = ['h', 'o', 'l', 'd', 's'] ∨ text = ['l', 'i', 's', 't', 's'] ∨
      text = ['i', 's'] := by
  have spelled (name : String) : String.ofList text = name ↔ text = name.toList := by
    rw [← String.toList_inj, String.toList_ofList]
  simp only [reserved, List.mem_cons, List.not_mem_nil, or_false, spelled, String.reduceToList]

theorem isLower_of_reserved {c : Char} {cs : List Char}
    (member : String.ofList (c :: cs) ∈ reserved) : c.isLower = true := by
  rcases mem_reserved.mp member with same | same | same | same | same
  all_goals
    cases same
    decide

theorem role_eq_plain {text : List Char} {w : Word} :
    role text = .plain w ↔ String.ofList text ∉ reserved ∧ classify text = w := by
  rw [mem_reserved]
  unfold role
  grind

theorem wellFormed_classify {text : List Char} (word : (Lexeme.word text).Valid)
    (free : String.ofList text ∉ reserved) : (classify text).WellFormed := by
  obtain ⟨any, inside⟩ := word
  obtain ⟨c, cs, rfl⟩ := List.exists_cons_of_ne_nil any
  obtain ⟨start, others⟩ := List.forall_mem_cons.mp inside
  have split : (String.ofList (c :: cs)).toList = c :: cs := String.toList_ofList
  by_cases first : c.isUpper = true ∨ c = '_'
  · have capital : VariableName (String.ofList (c :: cs)) := ⟨c, cs, split, first, others⟩
    rw [← split, classify_variable capital]
    exact capital
  · rcases classify_cons cs first with ⟨n, -, small, same⟩ | ⟨large, same⟩
    · rw [same]
      exact ⟨Int.natCast_nonneg n, by omega⟩
    · rw [same]
      exact .word c cs split ((not_capital_iff start).mp first) others free (by rwa [split])

end Reader

end HornMachine
