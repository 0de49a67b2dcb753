import HornMachine.Proofs.HeapView
import HornMachine.Proofs.ReadSentences
import Mathlib.Data.String.Basic

/-!
# Reading by byte offsets

The same reading with the whole text kept and a byte offset that is moved over it. What
lies before or behind an offset is a slice of the text, and slicing halts unless the
offset is at the start of a character or at the end of the text. The end of a block
comment is searched among the bytes, and a line is counted by its bytes. Every loop runs
under fuel and is `unfinished` if it has not ended by then.

An offset stands for a reader: the one that has the rest of the text and the number of
its line. At such an offset every slice is defined, and a byte below 128 is a character
of its own, so a search among the bytes finds what a search among the characters finds.
-/
namespace HornMachine

/-- What reading one sentence gives; nothing at the end of the text. -/
abbrev Reader.Result := Except LoadError (Option Sentence)

namespace ByteReader

def bytes (s : String) : List UInt8 := s.toByteArray.data.toList

/-- Where the bytes of `*/` first follow each other. -/
def closing? : List UInt8 → Option Nat
  | [] => none
  | b :: bs => if b = 0x2A ∧ bs.head? = some 0x2F then some 0 else (closing? bs).map (· + 1)

section

variable (text : String)

/-! ### Slices -/

def place (pos : Nat) : Except Halt text.Pos :=
  match text.pos? ⟨pos⟩ with
  | some p => .ok p
  | none => .error .outOfRange

def before (pos : Nat) : Except Halt String := do
  return (text.sliceTo (← place text pos)).copy

def behind (pos : Nat) : Except Halt String := do
  return (text.sliceFrom (← place text pos)).copy

def between (start stop : Nat) : Except Halt String := do
  let p ← place text start
  let q ← place text stop
  if ordered : p ≤ q then return (text.slice p q ordered).copy else .error .outOfRange

def peek (pos : Nat) : Except Halt (Option Char) := do
  return (← behind text pos).toList.head?

def peekSecond (pos : Nat) : Except Halt (Option Char) := do
  return (← behind text pos).toList.tail.head?

/-- The line of an offset, or of the end if it lies behind the end. -/
def lineAt (pos : Nat) : Except Halt Nat := do
  return 1 + (bytes (← before text (min pos text.utf8ByteSize))).count 0x0A

/-! ### Loops -/

/-- The next character, and the offset behind it. -/
def advance (pos : Nat) : Except Halt (Option Char × Nat) := do
  match ← peek text pos with
  | some c => return (some c, pos + c.utf8Size)
  | none => return (none, pos)

/-- The end of the run of characters that `p` holds of. -/
def runEnd (p : Char → Bool) : Nat → Nat → Except Halt Nat
  | 0, _ => .error .unfinished
  | fuel + 1, pos => do
    match ← peek text pos with
    | some c => if p c then runEnd p fuel (pos + c.utf8Size) else return pos
    | none => return pos

/-- The offset behind the next line break. -/
def lineEnd : Nat → Nat → Except Halt Nat
  | 0, _ => .error .unfinished
  | fuel + 1, pos => do
    match ← advance text pos with
    | (some c, pos) => if c = '\n' then return pos else lineEnd fuel pos
    | (none, pos) => return pos

/-- The offset behind the next `*/`. -/
def commentEnd (pos : Nat) : Except Halt Nat := do
  match closing? (bytes (← behind text pos)) with
  | some n => return pos + (n + 2)
  | none => return text.utf8ByteSize

/-- The offset behind the comment that starts at `pos`, if one does. -/
def comment? (fuel pos : Nat) : Except Halt (Option Nat) := do
  match ← peek text pos, ← peekSecond text pos with
  | some '/', some '/' => return some (← lineEnd text fuel pos)
  | some '/', some '*' => return some (← commentEnd text (pos + 2))
  | _, _ => return none

/-- The end of the blanks and comments. -/
def gapEnd : Nat → Nat → Except Halt Nat
  | 0, _ => .error .unfinished
  | fuel + 1, pos => do
    let pos ← runEnd text Reader.isBlank (fuel + 1) pos
    match ← comment? text (fuel + 1) pos with
    | some pos => gapEnd fuel pos
    | none => return pos

/-- The lexeme at `pos`, if there is one, and the offset behind it. -/
def lexemeAt (fuel pos : Nat) : Except Halt (Option Lexeme × Nat) := do
  match ← advance text pos with
  | (none, pos) => return (none, pos)
  | (some c, behind) =>
    if c = '.' then return (some .stop, behind)
    else if Reader.isWordChar c then
      let stop ← runEnd text Reader.isWordChar fuel pos
      return (some (.word (← between text pos stop).toList), stop)
    else return (some (.sign c), behind)

def next (fuel pos : Nat) : Except Halt (Option Lexeme × Nat) := do
  lexemeAt text fuel (← gapEnd text fuel pos)

/-- What the lexeme before `pos` does in a sentence that starts at `start`, with its finished
elements and the words of the current element, both latest first; `onward` reads on. -/
def meet (start : Nat)
    (onward : List Element → List Word → Nat → Except Halt (Reader.Result × Nat))
    (done : List Element) (current : List Word) :
    Option Lexeme → Nat → Except Halt (Reader.Result × Nat)
  | none, pos => do
    if done.isEmpty && current.isEmpty then return (.ok none, pos)
    else return (.error (.unfinishedSentence (← lineAt text start)), pos)
  | some .stop, pos => do
    if current.isEmpty then return (.error (.emptyElement (← lineAt text pos)), pos)
    else return (.ok (some (current.reverse :: done).reverse), pos)
  | some (.sign c), pos => onward done (.const (String.singleton c) :: current) pos
  | some (.word word), pos =>
    match Reader.role word with
    | .separator => do
      if current.isEmpty then return (.error (.emptyElement (← lineAt text pos)), pos)
      else onward (current.reverse :: done) [] pos
    | .marker m =>
      match current with
      | [.var name] => onward done [m.word name] pos
      | _ => return (.error (.misplacedMarker m (← lineAt text pos)), pos)
    | .arithmetic => return (.error (.arithmetic (← lineAt text pos)), pos)
    | .plain w => onward done (w :: current) pos

/-- Read on in a sentence that starts at `start`. -/
def sentenceFrom (start : Nat) : Nat → List Element → List Word → Nat →
    Except Halt (Reader.Result × Nat)
  | 0, _, _, _ => .error .unfinished
  | fuel + 1, done, current, pos => do
    let (l, pos) ← next text (fuel + 1) pos
    meet text start (sentenceFrom start fuel) done current l pos

/-- One call: its result, and the offset it leaves. -/
def sentence (fuel pos : Nat) : Except Halt (Reader.Result × Nat) :=
  sentenceFrom text pos fuel [] [] pos

/-- The offset after `n` more calls. -/
def after (fuel : Nat) : Nat → Nat → Except Halt Nat
  | 0, pos => .ok pos
  | n + 1, pos => do after fuel n (← sentence text fuel pos).2

/-- All sentences up to the end of the text, in at most `calls` calls. -/
def sentences (fuel : Nat) : Nat → Nat → Except Halt (Except LoadError (List Sentence))
  | 0, _ => .error .unfinished
  | calls + 1, pos => do
    match ← sentence text fuel pos with
    | (.ok none, _) => return .ok []
    | (.ok (some s), pos) => return (s :: ·) <$> (← sentences fuel calls pos)
    | (.error e, _) => return .error e

end

/-! ### Bytes -/

theorem bytes_ofList (cs : List Char) : bytes (.ofList cs) = cs.flatMap String.utf8EncodeChar := by
  rw [bytes, String.toByteArray_ofList, List.utf8Encode, List.data_toByteArray, List.toList_toArray]

theorem bytes_cons (c : Char) (cs : List Char) :
    bytes (.ofList (c :: cs)) = String.utf8EncodeChar c ++ bytes (.ofList cs) := by
  rw [bytes_ofList, bytes_ofList, List.flatMap_cons]

/-- A byte below 128 is the only byte of its character. -/
theorem toNat_of_mem_encode {c : Char} {b : UInt8} (member : b ∈ String.utf8EncodeChar c)
    (low : b.toNat < 128) : c.toNat = b.toNat := by
  have marked (x y : UInt8) (high : 128 ≤ y.toNat) : 128 ≤ (x ||| y).toNat := by
    rw [UInt8.toNat_or]
    exact high.trans Nat.right_le_or
  have apart {bs : List UInt8} (same : String.utf8EncodeChar c = bs)
      (high : ∀ d ∈ bs, 128 ≤ d.toNat) : False := by
    rw [same] at member
    exact absurd low (Nat.not_lt_of_le (high b member))
  rcases c.utf8Size_eq with size | size | size | size
  · rw [String.utf8EncodeChar_eq_singleton size, List.mem_singleton] at member
    have small : c.toNat ≤ 127 := UInt32.le_iff_toNat_le.mp (Char.utf8Size_eq_one_iff.mp size)
    rw [member]
    exact (Nat.mod_eq_of_lt (by omega)).symm
  · apply (apart (String.utf8EncodeChar_eq_cons_cons size) _).elim
    simp only [List.forall_mem_cons]
    exact ⟨marked _ _ (by decide), marked _ _ (by decide), nofun⟩
  · apply (apart (String.utf8EncodeChar_eq_cons_cons_cons size) _).elim
    simp only [List.forall_mem_cons]
    exact ⟨marked _ _ (by decide), marked _ _ (by decide), marked _ _ (by decide), nofun⟩
  · apply (apart (String.utf8EncodeChar_eq_cons_cons_cons_cons size) _).elim
    simp only [List.forall_mem_cons]
    exact ⟨marked _ _ (by decide), marked _ _ (by decide), marked _ _ (by decide),
      marked _ _ (by decide), nofun⟩

theorem eq_of_mem_encode {c d : Char} {b : UInt8} (member : b ∈ String.utf8EncodeChar c)
    (low : b.toNat < 128) (same : b.toNat = d.toNat) : c = d := by
  apply Char.toNat_inj.mp
  rw [toNat_of_mem_encode member low, same]

theorem count_bytes (cs : List Char) : (bytes (.ofList cs)).count 0x0A = cs.count '\n' := by
  induction cs with
  | nil => rfl
  | cons c cs ih =>
    rw [bytes_cons, List.count_append, ih]
    by_cases same : c = '\n'
    · subst same
      rw [List.count_cons_self, Nat.add_comm]
      rfl
    · have none : (0x0A : UInt8) ∉ String.utf8EncodeChar c :=
        fun member => same (eq_of_mem_encode member (by decide) rfl)
      rw [List.count_eq_zero_of_not_mem none, List.count_cons_of_ne same, Nat.zero_add]

theorem head?_bytes {cs : List Char} (slash : (bytes (.ofList cs)).head? = some 0x2F) :
    cs.head? = some '/' := by
  cases cs with
  | nil => cases slash
  | cons c cs =>
    obtain ⟨b, bs, encoded⟩ := List.exists_cons_of_ne_nil (String.utf8EncodeChar_ne_nil (c := c))
    rw [bytes_cons, encoded, List.cons_append, List.head?_cons, Option.some.injEq] at slash
    have member : b ∈ String.utf8EncodeChar c := by
      rw [encoded]
      exact List.mem_cons_self ..
    subst slash
    rw [List.head?_cons, eq_of_mem_encode (d := '/') member (by decide) rfl]

theorem closing?_append {bs : List UInt8} (apart : 0x2A ∉ bs) (rest : List UInt8) :
    closing? (bs ++ rest) = (closing? rest).map (· + bs.length) := by
  induction bs with
  | nil => simp
  | cons b bs ih =>
    rw [List.mem_cons, not_or] at apart
    rw [List.cons_append, closing?, if_neg fun found => apart.1 found.1.symm, ih apart.2,
      Option.map_map]
    rfl

/-- A comment that does not end at its first character ends where the rest of it does. -/
theorem closing?_cons {c : Char} {cs : List Char} (going : c = '*' → ∀ ds, cs ≠ '/' :: ds) :
    closing? (bytes (.ofList (c :: cs))) =
      (closing? (bytes (.ofList cs))).map (· + c.utf8Size) := by
  rw [bytes_cons]
  by_cases star : c = '*'
  · subst star
    have encoded : String.utf8EncodeChar '*' = [0x2A] := rfl
    have other : (bytes (.ofList cs)).head? ≠ some 0x2F := by
      intro slash
      obtain ⟨ds, same⟩ := List.head?_eq_some_iff.mp (head?_bytes slash)
      exact going rfl ds same
    rw [encoded, List.cons_append, closing?, if_neg fun found => other found.2]
    rfl
  · have none : (0x2A : UInt8) ∉ String.utf8EncodeChar c :=
      fun member => star (eq_of_mem_encode member (by decide) rfl)
    rw [closing?_append none, String.length_utf8EncodeChar]

end ByteReader

namespace Reader

open ByteReader

/-! ### Gaps -/

theorem lineAfter_eq (c : Char) (line : Nat) : lineAfter c line = line + [c].count '\n' := by
  by_cases same : c = '\n' <;> simp [lineAfter, same]

theorem skip_run (cs : List Char) (line : Nat) :
    skip .blanks cs line =
      skip .blanks (cs.dropWhile isBlank) (line + (cs.takeWhile isBlank).count '\n') := by
  induction cs generalizing line with
  | nil => rfl
  | cons c cs ih =>
    by_cases blank : isBlank c = true
    · have other : c ≠ '/' := by
        rintro rfl
        cases blank
      rw [List.dropWhile_cons_of_pos blank, List.takeWhile_cons_of_pos blank,
        skip_blanks (fun slash => absurd slash other), if_pos blank, ih, lineAfter_eq,
        Nat.add_assoc, ← List.count_append, List.singleton_append]
    · rw [List.dropWhile_cons_of_neg blank, List.takeWhile_cons_of_neg blank]
      rfl

/-- A block comment ends behind the first `*/`, or else with the text. -/
theorem skip_blockComment_cases (cs : List Char) (line : Nat) :
    (∃ inside rest, cs = inside ++ ['*', '/'] ++ rest ∧
      closing? (bytes (.ofList cs)) = some (String.utf8Len inside) ∧
      skip .blockComment cs line = skip .blanks rest (line + inside.count '\n')) ∨
    (closing? (bytes (.ofList cs)) = none ∧
      skip .blockComment cs line = ⟨[], line + cs.count '\n'⟩) := by
  induction cs generalizing line with
  | nil => exact .inr ⟨rfl, rfl⟩
  | cons c cs ih =>
    by_cases ends : c = '*' ∧ ∃ ds, cs = '/' :: ds
    · obtain ⟨rfl, ds, rfl⟩ := ends
      exact .inl ⟨[], ds, rfl, by rw [bytes_cons, bytes_cons]; rfl, rfl⟩
    · have going : c = '*' → ∀ ds, cs ≠ '/' :: ds := fun star ds same => ends ⟨star, ds, same⟩
      have counted (n : Nat) (cs : List Char) :
          lineAfter c n + cs.count '\n' = n + (c :: cs).count '\n' := by
        rw [lineAfter_eq, Nat.add_assoc, ← List.count_append, List.singleton_append]
      rw [skip_blockComment going, closing?_cons going]
      rcases ih (lineAfter c line) with ⟨inside, rest, rfl, closed, skipped⟩ | ⟨none, skipped⟩
      · refine .inl ⟨c :: inside, rest, rfl, ?_, ?_⟩
        · rw [closed, Option.map_some, String.utf8Len_cons]
        · rw [skipped, counted]
      · refine .inr ⟨?_, ?_⟩
        · rw [none, Option.map_none]
        · rw [skipped, counted]

theorem comment_cases (c : Char) (cs : List Char) :
    (∃ ds, c = '/' ∧ cs = '/' :: ds) ∨ (∃ ds, c = '/' ∧ cs = '*' :: ds) ∨
      (c = '/' → ∀ d ds, cs = d :: ds → d ≠ '/' ∧ d ≠ '*') := by
  grind

/-! ### Offsets -/

/-- The reader that has come to byte `pos` of the text. -/
def StandsAt (text : String) (r : Reader) (pos : Nat) : Prop :=
  ∃ front, text.toList = front ++ r.rest ∧ r.line = 1 + front.count '\n' ∧
    pos = String.utf8Len front

theorem exists_place {text : String} {front rest : List Char} (split : text.toList = front ++ rest) :
    ∃ p, place text (String.utf8Len front) = .ok p ∧ p.Splits (.ofList front) (.ofList rest) := by
  have whole : text = .ofList front ++ .ofList rest := by
    rw [← String.ofList_append, ← split, String.ofList_toList]
  have valid : (⟨String.utf8Len front⟩ : String.Pos.Raw).IsValid text := by
    apply String.Pos.Raw.isValid_iff_exists_append.mpr
    exact ⟨_, _, whole, (String.rawEndPos_ofList front).symm⟩
  refine ⟨text.pos _ valid, ?_, whole, ?_⟩
  · simp [place, String.pos?, String.Slice.pos?, valid, String.pos]
  · rw [String.offset_pos, String.rawEndPos_ofList]

namespace StandsAt

variable {text : String} {r : Reader} {c : Char} {cs rest : List Char} {pos line fuel : Nat}

theorem start (text : String) : (ofString text).StandsAt text 0 :=
  ⟨[], rfl, rfl, rfl⟩

theorem size (stands : r.StandsAt text pos) :
    pos + String.utf8Len r.rest = text.utf8ByteSize := by
  obtain ⟨front, split, -, rfl⟩ := stands
  rw [← String.utf8Len_append, ← split, ← String.utf8ByteSize_ofList, String.ofList_toList]

theorem isValid (stands : r.StandsAt text pos) : (⟨pos⟩ : String.Pos.Raw).IsValid text := by
  obtain ⟨front, split, -, rfl⟩ := stands
  apply String.Pos.Raw.isValid_iff_exists_append.mpr
  refine ⟨.ofList front, .ofList r.rest, ?_, (String.rawEndPos_ofList front).symm⟩
  rw [← String.ofList_append, ← split, String.ofList_toList]

theorem move (stands : StandsAt text ⟨cs ++ rest, line⟩ pos) :
    StandsAt text ⟨rest, line + cs.count '\n'⟩ (pos + String.utf8Len cs) := by
  obtain ⟨front, split, count, rfl⟩ := stands
  refine ⟨front ++ cs, ?_, ?_, ?_⟩
  · rw [split, List.append_assoc]
  · rw [List.count_append, ← Nat.add_assoc, ← count]
  · rw [String.utf8Len_append]

theorem cons (stands : StandsAt text ⟨c :: cs, line⟩ pos) :
    StandsAt text ⟨cs, lineAfter c line⟩ (pos + c.utf8Size) := by
  have split : StandsAt text ⟨[c] ++ cs, line⟩ pos := stands
  have moved := split.move
  rwa [← lineAfter_eq, String.utf8Len_cons, String.utf8Len_nil, Nat.zero_add] at moved

theorem atEnd (stands : StandsAt text ⟨cs, line⟩ pos) :
    StandsAt text ⟨[], line + cs.count '\n'⟩ text.utf8ByteSize := by
  have size := stands.size
  rw [← cs.append_nil] at stands
  have moved := stands.move
  rwa [size] at moved

theorem behind_eq (stands : StandsAt text ⟨cs, line⟩ pos) :
    behind text pos = .ok (.ofList cs) := by
  obtain ⟨front, split, -, rfl⟩ := stands
  obtain ⟨p, found, splits⟩ := exists_place split
  rw [behind, found, Halt.ok_bind, splits.copy_sliceFrom_eq]
  rfl

theorem lineAt_eq (stands : r.StandsAt text pos) : lineAt text pos = .ok r.line := by
  have within : min pos text.utf8ByteSize = pos := by
    have := stands.size
    omega
  obtain ⟨front, split, count, rfl⟩ := stands
  obtain ⟨p, found, splits⟩ := exists_place split
  rw [lineAt, within, before, found, Halt.ok_bind, splits.copy_sliceTo_eq, count, ← count_bytes]
  rfl

theorem between_eq (stands : StandsAt text ⟨cs ++ rest, line⟩ pos) :
    between text pos (pos + String.utf8Len cs) = .ok (.ofList cs) := by
  obtain ⟨front, split, -, rfl⟩ := stands
  have split' : text.toList = (front ++ cs) ++ rest := by rw [split, List.append_assoc]
  obtain ⟨p, found, splits⟩ := exists_place split
  obtain ⟨q, found', splits'⟩ := exists_place split'
  rw [String.ofList_append] at splits splits'
  obtain ⟨ordered, copied⟩ := String.copy_slice_eq_iff_splits.mpr ⟨_, _, splits, splits'⟩
  rw [String.utf8Len_append] at found'
  rw [between, found, Halt.ok_bind, found', Halt.ok_bind, dif_pos ordered, copied]
  rfl

theorem peek_eq (stands : StandsAt text ⟨cs, line⟩ pos) : peek text pos = .ok cs.head? := by
  rw [peek, stands.behind_eq, Halt.ok_bind, String.toList_ofList]
  rfl

theorem peekSecond_eq (stands : StandsAt text ⟨cs, line⟩ pos) :
    peekSecond text pos = .ok cs.tail.head? := by
  rw [peekSecond, stands.behind_eq, Halt.ok_bind, String.toList_ofList]
  rfl

theorem advance_nil (stands : StandsAt text ⟨[], line⟩ pos) :
    advance text pos = .ok (none, pos) := by
  rw [advance, stands.peek_eq]
  rfl

theorem advance_cons (stands : StandsAt text ⟨c :: cs, line⟩ pos) :
    advance text pos = .ok (some c, pos + c.utf8Size) := by
  rw [advance, stands.peek_eq]
  rfl

/-! ### Loops -/

theorem runEnd_eq (p : Char → Bool) (stands : StandsAt text ⟨cs, line⟩ pos)
    (enough : cs.length < fuel) :
    runEnd text p fuel pos = .ok (pos + String.utf8Len (cs.takeWhile p)) := by
  induction fuel generalizing cs line pos with
  | zero => exact absurd enough (Nat.not_lt_zero _)
  | succ fuel ih =>
    rw [runEnd, stands.peek_eq, Halt.ok_bind]
    cases cs with
    | nil => rfl
    | cons c cs =>
      rw [List.head?_cons]
      dsimp only
      by_cases run : p c = true
      · rw [if_pos run, ih stands.cons (Nat.lt_of_succ_lt_succ enough),
          List.takeWhile_cons_of_pos run, String.utf8Len_cons, Nat.add_assoc,
          Nat.add_comm c.utf8Size]
      · rw [if_neg run, List.takeWhile_cons_of_neg run]
        rfl

/-- Behind a line comment there may follow another gap. -/
theorem exists_lineEnd (stands : StandsAt text ⟨cs, line⟩ pos) (enough : cs.length < fuel) :
    ∃ rest line' pos', lineEnd text fuel pos = .ok pos' ∧ StandsAt text ⟨rest, line'⟩ pos' ∧
      rest.length ≤ cs.length - 1 ∧ skip .lineComment cs line = skip .blanks rest line' := by
  induction fuel generalizing cs line pos with
  | zero => exact absurd enough (Nat.not_lt_zero _)
  | succ fuel ih =>
    cases cs with
    | nil =>
      refine ⟨[], line, pos, ?_, stands, Nat.le_refl _, rfl⟩
      rw [lineEnd, stands.advance_nil]
      rfl
    | cons c cs =>
      rw [lineEnd, stands.advance_cons, Halt.ok_bind, skip_lineComment]
      dsimp only
      by_cases newline : c = '\n'
      · rw [if_pos newline, if_pos newline]
        exact ⟨cs, _, _, rfl, stands.cons, Nat.le_refl _, rfl⟩
      · rw [if_neg newline, if_neg newline]
        obtain ⟨rest, line', pos', ended, there, shorter, skipped⟩ :=
          ih stands.cons (Nat.lt_of_succ_lt_succ enough)
        exact ⟨rest, line', pos', ended, there, shorter.trans (Nat.sub_le _ _), skipped⟩

theorem exists_commentEnd (stands : StandsAt text ⟨cs, line⟩ pos) :
    ∃ rest line' pos', commentEnd text pos = .ok pos' ∧ StandsAt text ⟨rest, line'⟩ pos' ∧
      rest.length ≤ cs.length ∧ skip .blockComment cs line = skip .blanks rest line' := by
  rw [commentEnd, stands.behind_eq, Halt.ok_bind]
  rcases skip_blockComment_cases cs line with ⟨inside, rest, rfl, closed, skipped⟩ |
    ⟨none, skipped⟩
  · rw [closed]
    have moved := stands.move
    rw [List.count_append, String.utf8Len_append] at moved
    refine ⟨rest, _, _, rfl, moved, ?_, skipped⟩
    rw [List.length_append]
    exact Nat.le_add_left _ _
  · rw [none]
    exact ⟨[], _, _, rfl, stands.atEnd, Nat.zero_le _, skipped⟩

/-- Where no blank stands, a comment is passed or nothing is to be skipped. -/
theorem comment?_eq (stands : StandsAt text ⟨cs, line⟩ pos) (enough : cs.length < fuel)
    (visible : ∀ c, cs.head? = some c → isBlank c = false) :
    (comment? text fuel pos = .ok none ∧ skip .blanks cs line = ⟨cs, line⟩) ∨
    ∃ rest line' pos', comment? text fuel pos = .ok (some pos') ∧
      StandsAt text ⟨rest, line'⟩ pos' ∧ rest.length < cs.length ∧
      skip .blanks cs line = skip .blanks rest line' := by
  rw [comment?, stands.peek_eq, Halt.ok_bind, stands.peekSecond_eq, Halt.ok_bind]
  cases cs with
  | nil => exact .inl ⟨rfl, rfl⟩
  | cons c cs =>
    rcases comment_cases c cs with ⟨ds, rfl, rfl⟩ | ⟨ds, rfl, rfl⟩ | going
    · right
      obtain ⟨rest, line', pos', ended, there, less, skipped⟩ := stands.exists_lineEnd enough
      refine ⟨rest, line', pos', ?_, there, ?_, ?_⟩
      · rw [ended]
        rfl
      · simp only [List.length_cons] at less ⊢
        omega
      · rw [skip_lineComment, if_neg (by decide), skip_lineComment, if_neg (by decide)] at skipped
        rw [skip_slashes]
        exact skipped
    · right
      obtain ⟨rest, line', pos', ended, there, less, skipped⟩ :=
        stands.cons.cons.exists_commentEnd
      have ended' : commentEnd text (pos + 2) = .ok pos' := ended
      refine ⟨rest, line', pos', ?_, there, ?_, ?_⟩
      · rw [ended']
        rfl
      · simp only [List.length_cons]
        omega
      · rw [skip_slash_star]
        exact skipped
    · left
      have apart {d : Char} (mark : d = '/' ∨ d = '*') (slash : c = '/') :
          cs.head? ≠ some d := by
        intro second
        obtain ⟨ds, same⟩ := List.head?_eq_some_iff.mp second
        have other := going slash d ds same
        exact mark.elim other.1 other.2
      refine ⟨?_, skip_visible (visible c rfl) going line⟩
      split
      · next first second => exact absurd second (apart (.inl rfl) (Option.some.inj first))
      · next first second => exact absurd second (apart (.inr rfl) (Option.some.inj first))
      · rfl

theorem exists_gapEnd (stands : StandsAt text ⟨cs, line⟩ pos) (enough : cs.length < fuel) :
    ∃ pos', gapEnd text fuel pos = .ok pos' ∧ (skip .blanks cs line).StandsAt text pos' := by
  induction fuel generalizing cs line pos with
  | zero => exact absurd enough (Nat.not_lt_zero _)
  | succ fuel ih =>
    rw [gapEnd, stands.runEnd_eq _ enough, Halt.ok_bind, skip_run]
    have few : (cs.dropWhile isBlank).length < fuel + 1 :=
      (List.dropWhile_sublist isBlank).length_le.trans_lt enough
    have visible (c : Char) (first : (cs.dropWhile isBlank).head? = some c) :
        isBlank c = false := by
      have := List.head?_dropWhile_not isBlank cs
      rwa [first] at this
    rw [← List.takeWhile_append_dropWhile (p := isBlank) (l := cs)] at stands
    rcases stands.move.comment?_eq few visible with
      ⟨none, skipped⟩ | ⟨rest, line', pos', passed, there, less, skipped⟩
    · rw [none, Halt.ok_bind, skipped]
      exact ⟨_, rfl, stands.move⟩
    · rw [passed, Halt.ok_bind, skipped]
      exact ih there (less.trans_le (Nat.le_of_lt_succ few))

/-- A lexeme is read off the bytes. -/
theorem exists_lexeme (stands : StandsAt text ⟨c :: cs, line⟩ pos)
    (enough : (c :: cs).length < fuel) (visible : isBlank c = false) :
    ∃ pos', lexemeAt text fuel pos = .ok (some (lexeme c cs).1, pos') ∧
      StandsAt text ⟨(lexeme c cs).2, line⟩ pos' := by
  have sameLine (going : c ≠ '\n') : lineAfter c line = line := if_neg going
  rw [lexemeAt, stands.advance_cons, Halt.ok_bind, lexeme]
  dsimp only
  by_cases stop : c = '.'
  · rw [if_pos stop, if_pos stop]
    have there := stands.cons
    rw [sameLine (by rintro rfl; cases stop)] at there
    exact ⟨_, rfl, there⟩
  · rw [if_neg stop, if_neg stop]
    by_cases inside : isWordChar c = true
    · have split : c :: cs = c :: cs.takeWhile isWordChar ++ cs.dropWhile isWordChar := by
        rw [List.cons_append, List.takeWhile_append_dropWhile]
      have noBreak : (c :: cs.takeWhile isWordChar).count '\n' = 0 := by
        apply List.count_eq_zero_of_not_mem
        intro member
        rcases List.mem_cons.mp member with rfl | member
        · cases inside
        · cases List.all_eq_true.mp List.all_takeWhile _ member
      rw [if_pos inside, if_pos inside, stands.runEnd_eq _ enough, Halt.ok_bind,
        List.takeWhile_cons_of_pos inside]
      rw [split] at stands
      have there := stands.move
      rw [noBreak, Nat.add_zero] at there
      rw [stands.between_eq, Halt.ok_bind, String.toList_ofList]
      exact ⟨_, rfl, there⟩
    · rw [if_neg inside, if_neg inside]
      have there := stands.cons
      rw [sameLine (by rintro rfl; cases visible)] at there
      exact ⟨_, rfl, there⟩

theorem exists_next (stands : r.StandsAt text pos) (enough : r.rest.length < fuel) :
    ∃ pos', ByteReader.next text fuel pos = .ok (r.next.1, pos') ∧
      r.next.2.StandsAt text pos' := by
  obtain ⟨gap, found, there⟩ := exists_gapEnd stands enough
  have shorter := length_skip_le .blanks r.rest r.line
  rw [ByteReader.next, found, Halt.ok_bind]
  cases skipped : skip .blanks r.rest r.line with
  | mk cs line =>
  rw [skipped] at there shorter
  cases cs with
  | nil =>
    have ended : r.next = (none, ⟨[], line⟩) := by rw [Reader.next, skipped]
    rw [ended, lexemeAt, there.advance_nil]
    exact ⟨gap, rfl, there⟩
  | cons c cs =>
    have met : r.next = (some (lexeme c cs).1, ⟨(lexeme c cs).2, line⟩) :=
      next_of_skip skipped rfl
    rw [met]
    exact there.exists_lexeme (shorter.trans_lt enough) (isBlank_of_skip skipped)

end StandsAt

end Reader

end HornMachine
