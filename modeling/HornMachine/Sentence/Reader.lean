import HornMachine.LoadError

/-!
# Reading sentences

The text is a sequence of lexemes between blanks and comments: the stop `.`,
words over ASCII letters, digits and `_`, and any other character as a sign of
its own. `if` and `and` end an element, the stop ends a sentence, and `holds` or
`lists` behind a single variable turns that variable into an equation marker.

A reader is the text still to be read together with its line number. It moves
past a lexeme before the lexeme can be refused, so every sentence and every
error leaves less text than before, and reading goes on behind an error.
-/
namespace HornMachine

structure Reader where
  rest : List Char
  line : Nat := 1

inductive Lexeme
  | stop
  | word (text : List Char)
  | sign (c : Char)
deriving DecidableEq, Repr

namespace Reader

def ofString (text : String) : Reader := { rest := text.toList }

/-- The characters with the Unicode property `White_Space`. -/
def isBlank (c : Char) : Bool :=
  (9 ≤ c.val && c.val ≤ 13) || c.val = 32 || c.val = 0x85 || c.val = 0xA0 ||
    c.val = 0x1680 || (0x2000 ≤ c.val && c.val ≤ 0x200A) || c.val = 0x2028 ||
    c.val = 0x2029 || c.val = 0x202F || c.val = 0x205F || c.val = 0x3000

def isWordChar (c : Char) : Bool := c.isAlphanum || c = '_'

def lineAfter (c : Char) (line : Nat) : Nat := if c = '\n' then line + 1 else line

/-- What is being skipped between two lexemes. -/
inductive Gap
  | blanks
  | lineComment
  | blockComment

/-- Skip blanks and comments; a block comment that is not closed runs to the end. -/
def skip : Gap → List Char → Nat → Reader
  | _, [], line => ⟨[], line⟩
  | .blanks, '/' :: '/' :: cs, line => skip .lineComment cs line
  | .blanks, '/' :: '*' :: cs, line => skip .blockComment cs line
  | .blanks, c :: cs, line =>
    if isBlank c then skip .blanks cs (lineAfter c line) else ⟨c :: cs, line⟩
  | .lineComment, c :: cs, line =>
    skip (if c = '\n' then .blanks else .lineComment) cs (lineAfter c line)
  | .blockComment, '*' :: '/' :: cs, line => skip .blanks cs line
  | .blockComment, c :: cs, line => skip .blockComment cs (lineAfter c line)

/-- The lexeme that starts with `c`, and the text behind it. -/
def lexeme (c : Char) (cs : List Char) : Lexeme × List Char :=
  if c = '.' then (.stop, cs)
  else if isWordChar c then (.word (c :: cs.takeWhile isWordChar), cs.dropWhile isWordChar)
  else (.sign c, cs)

/-- The next lexeme, if there is one, and the reader behind it. -/
def next (r : Reader) : Option Lexeme × Reader :=
  match skip .blanks r.rest r.line with
  | ⟨[], line⟩ => (none, ⟨[], line⟩)
  | ⟨c :: cs, line⟩ =>
    let (l, rest) := lexeme c cs
    (some l, ⟨rest, line⟩)

theorem length_skip_le (g : Gap) (cs : List Char) (line : Nat) :
    (skip g cs line).rest.length ≤ cs.length := by
  fun_induction skip g cs line <;> simp_all <;> omega

theorem length_lexeme_le (c : Char) (cs : List Char) :
    (lexeme c cs).2.length ≤ cs.length := by
  unfold lexeme
  split
  · exact Nat.le_refl _
  · split
    · exact (List.dropWhile_sublist _).length_le
    · exact Nat.le_refl _

theorem length_lt_of_next {r r' : Reader} {l : Lexeme} (h : r.next = (some l, r')) :
    r'.rest.length < r.rest.length := by
  have skipped := length_skip_le .blanks r.rest r.line
  unfold next at h
  split at h
  · simp at h
  · next c cs line e =>
    rw [e] at skipped
    have shorter := length_lexeme_le c cs
    simp only [Prod.mk.injEq] at h
    rw [← h.2]
    simp only [List.length_cons] at skipped
    dsimp only
    omega

/-- Integers of at least this magnitude are not number words. -/
def numberBound : Nat := 1 <<< 60

/-- The value of a word of decimal digits. -/
def decimal? (text : List Char) : Option Nat :=
  if text.all Char.isDigit then
    some (text.foldl (fun n c => n * 10 + (c.toNat - '0'.toNat)) 0)
  else none

/-- A word starting with a capital or `_` is a variable; a short enough decimal
is a number; every other word is a constant. -/
def classify (text : List Char) : Word :=
  match text with
  | [] => .var ""
  | c :: _ =>
    if c.isUpper || c = '_' then .var (String.ofList text)
    else match decimal? text with
      | some n => if n < numberBound then .number n else .const (String.ofList text)
      | none => .const (String.ofList text)

/-- What a word does to the sentence being read. -/
inductive Role
  | separator
  | marker (m : Marker)
  | arithmetic
  | plain (w : Word)

def role (text : List Char) : Role :=
  if text = ['i', 'f'] || text = ['a', 'n', 'd'] then .separator
  else if text = ['h', 'o', 'l', 'd', 's'] then .marker .holds
  else if text = ['l', 'i', 's', 't', 's'] then .marker .lists
  else if text = ['i', 's'] then .arithmetic
  else .plain (classify text)

/-- What reading one sentence comes to, with the reader behind it. -/
inductive Reading
  | ended
  | sentence (s : Sentence) (behind : Reader)
  | refused (e : LoadError) (behind : Reader)

set_option linter.unusedVariables false in
/-- Read on in a sentence that starts on line `start`, with its finished elements
and the words of the current element, both latest first. -/
def sentenceFrom (start : Nat) (done : List Element) (current : List Word) (r : Reader) :
    Reading :=
  match found : r.next with
  | (none, r') =>
    if done.isEmpty && current.isEmpty then .ended
    else .refused (.unfinishedSentence start) r'
  | (some .stop, r') =>
    if current.isEmpty then .refused (.emptyElement r'.line) r'
    else .sentence (current.reverse :: done).reverse r'
  | (some (.sign c), r') => sentenceFrom start done (.const (String.singleton c) :: current) r'
  | (some (.word text), r') =>
    match role text with
    | .separator =>
      if current.isEmpty then .refused (.emptyElement r'.line) r'
      else sentenceFrom start (current.reverse :: done) [] r'
    | .marker m =>
      match current with
      | [.var name] => sentenceFrom start done [m.word name] r'
      | _ => .refused (.misplacedMarker m r'.line) r'
    | .arithmetic => .refused (.arithmetic r'.line) r'
    | .plain w => sentenceFrom start done (w :: current) r'
termination_by r.rest.length
decreasing_by all_goals exact length_lt_of_next found

/-- Read one sentence. -/
def sentence (r : Reader) : Reading := sentenceFrom r.line [] [] r

theorem length_lt_of_sentenceFrom {start : Nat} {done : List Element} {current : List Word}
    {r r' : Reader} {s : Sentence}
    (h : sentenceFrom start done current r = .sentence s r') :
    r'.rest.length < r.rest.length := by
  fun_induction sentenceFrom start done current r <;> simp_all
  all_goals
    have := length_lt_of_next (by assumption)
    omega

theorem length_lt_of_sentence {r r' : Reader} {s : Sentence}
    (h : r.sentence = .sentence s r') : r'.rest.length < r.rest.length :=
  length_lt_of_sentenceFrom h

set_option linter.unusedVariables false in
/-- All sentences up to the end of the text. -/
def sentences (r : Reader) : Except LoadError (List Sentence) :=
  match found : r.sentence with
  | .ended => .ok []
  | .refused e _ => .error e
  | .sentence s r' => (s :: ·) <$> sentences r'
termination_by r.rest.length
decreasing_by exact length_lt_of_sentence found

end Reader

/-- The sentences of a program text. -/
def readProgram (text : String) : Except LoadError (List Sentence) :=
  (Reader.ofString text).sentences

end HornMachine
