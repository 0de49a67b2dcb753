import HornMachine.Proofs.ReadSentences
import Mathlib.Data.List.Forall2
import Mathlib.Data.List.Infix
import Mathlib.Tactic.Choose

/-!
# Sentences that are written

A text that writes well-formed sentences is read as these sentences. The tokens of a
text stand apart by a blank at least, with any further blanks and comments, so every
token is met as one lexeme: a word is not continued, and a slash does not start a
comment. What a lexeme does to the sentence being read is independent of how the text
goes on.
-/
namespace HornMachine

/-- Blanks and complete comments. -/
inductive Spacing : List Char → Prop
  | nil : Spacing []
  | blank {c : Char} {cs : List Char} (blank : Reader.isBlank c = true) (rest : Spacing cs) :
    Spacing (c :: cs)
  | line {body cs : List Char} (inside : '\n' ∉ body) (rest : Spacing cs) :
    Spacing ('/' :: '/' :: (body ++ '\n' :: cs))
  | block {body cs : List Char} (inside : ¬ ['*', '/'] <:+: body) (rest : Spacing cs) :
    Spacing ('/' :: '*' :: (body ++ '*' :: '/' :: cs))

/-- Tokens in a text, with a blank behind each of them but the last, and any spacing
around them. -/
inductive Spaced : List (List Char) → List Char → Prop
  | nil {gap : List Char} (spacing : Spacing gap) : Spaced [] gap
  | cons {gap token text : List Char} {tokens : List (List Char)} (spacing : Spacing gap)
      (rest : Spaced tokens text)
      (apart : tokens ≠ [] → ∃ c cs, text = c :: cs ∧ Reader.isBlank c = true) :
    Spaced (token :: tokens) (gap ++ token ++ text)

/-- What a word is written as. -/
inductive Word.Token : Word → List Char → Prop
  | const (name : String) : Token (.const name) name.toList
  | number {text : List Char} {n : Nat} (digits : Numeral text n) : Token (.number n) text
  | var (name : String) : Token (.var name) name.toList

/-- What an element is written as; the marker of an equation follows its variable. -/
inductive Element.Tokens : Element → List (List Char) → Prop
  | plain {ws : List Word} {ts : List (List Char)} (words : List.Forall₂ Word.Token ws ts) :
    Tokens ws ts
  | marked (m : Marker) (name : String) {ws : List Word} {ts : List (List Char)}
      (words : List.Forall₂ Word.Token ws ts) :
    Tokens (m.word name :: ws) (name.toList :: m.text.toList :: ts)

inductive Sentence.Tokens : Sentence → List (List Char) → Prop
  | last {e : Element} {ts : List (List Char)} (element : e.Tokens ts) :
    Tokens [e] (ts ++ [['.']])
  | cons {e : Element} {s : Sentence} {ts us : List (List Char)} {divider : String}
      (element : e.Tokens ts) (divides : divider = "if" ∨ divider = "and") (rest : Tokens s us) :
    Tokens (e :: s) (ts ++ divider.toList :: us)

/-- The text writes the sentences. -/
def Writes (text : String) (ss : List Sentence) : Prop :=
  ∃ tss, List.Forall₂ Sentence.Tokens ss tss ∧ Spaced tss.flatten text.toList

theorem Sentence.Tokens.ne_nil {s : Sentence} {ts : List (List Char)} (written : s.Tokens ts) :
    ts ≠ [] := by
  cases written with
  | last _ => exact List.append_ne_nil_of_right_ne_nil _ (List.cons_ne_nil _ _)
  | cons _ _ _ => exact List.append_ne_nil_of_right_ne_nil _ (List.cons_ne_nil _ _)

namespace Reader

/-! ### Spacing -/

theorem skip_line {body : List Char} (inside : '\n' ∉ body) (cs : List Char) (line : Nat) :
    ∃ line', skip .lineComment (body ++ '\n' :: cs) line = skip .blanks cs line' := by
  induction body generalizing line with
  | nil =>
    rw [List.nil_append, skip_lineComment, if_pos rfl]
    exact ⟨_, rfl⟩
  | cons c body ih =>
    rw [List.mem_cons, not_or] at inside
    rw [List.cons_append, skip_lineComment, if_neg (Ne.symm inside.1)]
    exact ih inside.2 _

theorem skip_block {body : List Char} (inside : ¬ ['*', '/'] <:+: body) (cs : List Char)
    (line : Nat) :
    ∃ line', skip .blockComment (body ++ '*' :: '/' :: cs) line = skip .blanks cs line' := by
  induction body generalizing line with
  | nil => exact ⟨line, rfl⟩
  | cons c body ih =>
    rw [List.cons_append, skip_blockComment]
    · exact ih (fun infixed => inside (List.infix_cons infixed)) _
    · rintro rfl ds same
      cases body with
      | nil => cases same
      | cons d body =>
        obtain rfl : d = '/' := (List.cons.inj same).1
        exact inside ⟨[], body, rfl⟩

theorem skip_spacing {gap : List Char} (spacing : Spacing gap) (cs : List Char) (line : Nat) :
    ∃ line', skip .blanks (gap ++ cs) line = skip .blanks cs line' := by
  induction spacing generalizing line with
  | nil => exact ⟨line, rfl⟩
  | @blank c gap blank _ ih =>
    have other : c ≠ '/' := by
      rintro rfl
      cases blank
    rw [List.cons_append, skip_blanks (fun slash => absurd slash other), if_pos blank]
    exact ih _
  | @line body gap inside _ ih =>
    obtain ⟨line', skipped⟩ := skip_line inside (gap ++ cs) line
    rw [List.cons_append, List.cons_append, List.append_assoc, List.cons_append, skip_slashes,
      skipped]
    exact ih line'
  | @block body gap inside _ ih =>
    obtain ⟨line', skipped⟩ := skip_block inside (gap ++ cs) line
    rw [List.cons_append, List.cons_append, List.append_assoc, List.cons_append, List.cons_append,
      skip_slash_star, skipped]
    exact ih line'

/-! ### Lexemes -/

/-- A lexeme is met where it stands in front of a blank, and a stop is met anywhere. -/
theorem lexeme_text {l : Lexeme} (text : List Char) (valid : l.Valid)
    (apart : l ≠ .stop → ∃ c cs, text = c :: cs ∧ isBlank c = true) :
    ∃ c cs, l.text ++ text = c :: cs ∧ lexeme c cs = (l, text) ∧
      ∀ line, skip .blanks (c :: cs) line = ⟨c :: cs, line⟩ := by
  cases l with
  | stop =>
    have other : '.' ≠ '/' := by decide
    exact ⟨'.', text, rfl, rfl, skip_visible (by decide) fun slash => absurd slash other⟩
  | word word =>
    obtain ⟨any, inside⟩ := valid
    obtain ⟨b, ds, rfl, blank⟩ := apart nofun
    obtain ⟨c, cs, rfl⟩ := List.exists_cons_of_ne_nil any
    obtain ⟨first, others⟩ := List.forall_mem_cons.mp inside
    have ends := isWordChar_of_isBlank blank
    have going : c ≠ '.' ∧ c ≠ '/' ∧ isBlank c = false := by
      refine ⟨?_, ?_, ?_⟩
      · rintro rfl
        cases first
      · rintro rfl
        cases first
      · rw [← Bool.not_eq_true]
        intro blank
        rw [isWordChar_of_isBlank blank] at first
        cases first
    refine ⟨c, cs ++ b :: ds, rfl, ?_, skip_visible going.2.2 fun slash => absurd slash going.2.1⟩
    rw [lexeme, if_neg going.1, if_pos first, List.takeWhile_append_of_pos others,
      List.dropWhile_append_of_pos others, List.takeWhile_cons_of_neg (by simp [ends]),
      List.dropWhile_cons_of_neg (by simp [ends]), List.append_nil]
  | sign c =>
    obtain ⟨visible, apart', going⟩ := valid
    obtain ⟨b, ds, rfl, blank⟩ := apart nofun
    refine ⟨c, b :: ds, rfl, ?_, skip_visible visible fun _ d ds' same => ?_⟩
    · rw [lexeme, if_neg going, if_neg (by simp [apart'])]
    · obtain rfl := (List.cons.inj same).1
      constructor
      · rintro rfl
        cases blank
      · rintro rfl
        cases blank

theorem next_token {l : Lexeme} {us : List (List Char)} {text : List Char} (valid : l.Valid)
    (more : us ≠ [] ∨ l = .stop) (spaced : Spaced (l.text :: us) text) (line : Nat) :
    ∃ text' line', Spaced us text' ∧ next ⟨text, line⟩ = (some l, ⟨text', line'⟩) := by
  cases spaced with
  | @cons gap _ text' _ spacing rest apart =>
    obtain ⟨c, cs, split, met, visible⟩ := lexeme_text text' valid
      fun going => apart (more.resolve_right going)
    obtain ⟨line', skipped⟩ := skip_spacing spacing (c :: cs) line
    refine ⟨text', line', rest, next_of_skip ?_ met⟩
    rw [List.append_assoc, split, skipped, visible]

/-! ### Words -/

section

variable {start : Nat} {done : List Element} {current : Element} {r r' : Reader} {name : String}
  {text : List Char} {w : Word} {m : Marker} {c : Char}

theorem sentenceFrom_stop (met : r.next = (some .stop, r')) (any : current ≠ []) :
    sentenceFrom start done current r = .sentence (current.reverse :: done).reverse r' := by
  rw [sentenceFrom]
  split
  all_goals simp_all

theorem sentenceFrom_sign (met : r.next = (some (.sign c), r')) :
    sentenceFrom start done current r =
      sentenceFrom start done (.const (String.singleton c) :: current) r' := by
  rw [sentenceFrom]
  split
  all_goals simp_all

theorem sentenceFrom_plain (met : r.next = (some (.word text), r'))
    (plain : role text = .plain w) :
    sentenceFrom start done current r = sentenceFrom start done (w :: current) r' := by
  rw [sentenceFrom]
  split
  all_goals simp_all

theorem sentenceFrom_divider (met : r.next = (some (.word text), r'))
    (divides : role text = .separator) (any : current ≠ []) :
    sentenceFrom start done current r = sentenceFrom start (current.reverse :: done) [] r' := by
  rw [sentenceFrom]
  split
  all_goals simp_all

theorem sentenceFrom_marker (met : r.next = (some (.word text), r'))
    (marks : role text = .marker m) :
    sentenceFrom start done [.var name] r = sentenceFrom start done [m.word name] r' := by
  rw [sentenceFrom]
  split
  all_goals simp_all

end

section

variable {start line : Nat} {done : List Element} {current : Element} {us : List (List Char)}
  {text token : List Char} {w : Word}

/-- A word of letters and digits that is not reserved and whose class is `w`. -/
structure Spells (cs : List Char) (w : Word) : Prop where
  valid : (Lexeme.word cs).Valid
  free : String.ofList cs ∉ reserved
  class_eq : classify cs = w

theorem spells_constant {name : String} {c : Char} {cs : List Char} (split : name.toList = c :: cs)
    (first : c.isLower = true ∨ c.isDigit = true) (inside : ∀ d ∈ cs, isWordChar d = true)
    (free : name ∉ reserved) (large : ∀ n, Numeral name.toList n → 2 ^ 60 ≤ n) :
    Spells name.toList (.const name) := by
  have start : isWordChar c = true := isWordChar_iff.mpr (.inr first)
  refine ⟨?_, by rwa [String.ofList_toList], ?_⟩
  · rw [split]
    exact ⟨List.cons_ne_nil c cs, List.forall_mem_cons.mpr ⟨start, inside⟩⟩
  · rcases classify_cons cs ((not_capital_iff start).mpr first) with
      ⟨n, digits, small, -⟩ | ⟨-, same⟩
    · rw [← split] at digits
      exact absurd small (Nat.not_lt_of_le (large n digits))
    · rw [split, same, ← split, String.ofList_toList]

theorem spells_number {n : Nat} (digits : Numeral token n) (small : n < 2 ^ 60) :
    Spells token (.number n) := by
  have inside (c : Char) (member : c ∈ token) : isWordChar c = true :=
    isWordChar_iff.mpr (.inr (.inr (digits.digit c member)))
  refine ⟨⟨digits.nonempty, inside⟩, fun member => ?_, classify_number digits small⟩
  obtain ⟨c, cs, rfl⟩ := List.exists_cons_of_ne_nil digits.nonempty
  obtain ⟨-, lower, digit⟩ := toNat_cases c
  have first := lower.mp (isLower_of_reserved member)
  have first' := digit.mp (digits.digit c (List.mem_cons_self ..))
  omega

theorem spells_variable {name : String} (capital : VariableName name) :
    Spells name.toList (.var name) := by
  have same := classify_variable capital
  obtain ⟨c, cs, split, first, inside⟩ := capital
  rw [split] at same ⊢
  have start : isWordChar c = true := isWordChar_iff.mpr (.inl first)
  refine ⟨⟨List.cons_ne_nil c cs, List.forall_mem_cons.mpr ⟨start, inside⟩⟩,
    fun member => ?_, same⟩
  obtain ⟨upper, lower, -⟩ := toNat_cases c
  have first' := lower.mp (isLower_of_reserved member)
  have first'' := upper.mp first
  omega

theorem exists_lexeme (word : w.WellFormed) (written : w.Token token) :
    ∃ l : Lexeme, l.Valid ∧ l.text = token ∧ ∀ {start done current r r'},
      next r = (some l, r') →
        sentenceFrom start done current r = sentenceFrom start done (w :: current) r' := by
  have plain (spells : Spells token w) : ∃ l : Lexeme, l.Valid ∧ l.text = token ∧
      ∀ {start done current r r'}, next r = (some l, r') →
        sentenceFrom start done current r = sentenceFrom start done (w :: current) r' :=
    ⟨.word token, spells.valid, rfl, fun met =>
      sentenceFrom_plain met (role_eq_plain.mpr ⟨spells.free, spells.class_eq⟩)⟩
  cases written with
  | const name =>
    cases word with
    | sign c single visible apart going =>
      have same : String.singleton c = name := by
        rw [← String.toList_inj, String.toList_singleton, single]
      refine ⟨.sign c, ⟨visible, apart, going⟩, single.symm, fun met => ?_⟩
      rw [sentenceFrom_sign met, same]
    | word c cs split first inside free large =>
      exact plain (spells_constant split first inside free large)
  | number digits => exact plain (spells_number digits (Int.ofNat_lt.mp word.2))
  | var name => exact plain (spells_variable word)

end

/-! ### Reading on -/

/-- Past the tokens in front of `us`, the reader that has `done` and `current` goes on
with `done'` and `current'`. -/
def Advances (ts us : List (List Char)) (done : List Element) (current : Element)
    (done' : List Element) (current' : Element) : Prop :=
  ∀ start text line, Spaced ts text → ∃ text' line', Spaced us text' ∧
    sentenceFrom start done current ⟨text, line⟩ =
      sentenceFrom start done' current' ⟨text', line'⟩

section

variable {ts us vs : List (List Char)} {done done' done'' : List Element}
  {current current' current'' : Element} {w : Word} {e : Element} {s : Sentence}

theorem Advances.refl : Advances ts ts done current done current :=
  fun _ text line spaced => ⟨text, line, spaced, rfl⟩

theorem Advances.trans (first : Advances ts us done current done' current')
    (later : Advances us vs done' current' done'' current'') :
    Advances ts vs done current done'' current'' := by
  intro start text line spaced
  obtain ⟨text', line', spaced', here⟩ := first start text line spaced
  obtain ⟨text'', line'', spaced'', there⟩ := later start text' line' spaced'
  exact ⟨text'', line'', spaced'', here.trans there⟩

theorem Advances.lexeme {l : Lexeme} (valid : l.Valid) (more : us ≠ [])
    (does : ∀ {start r r'}, next r = (some l, r') →
      sentenceFrom start done current r = sentenceFrom start done' current' r') :
    Advances (l.text :: us) us done current done' current' := by
  intro start text line spaced
  obtain ⟨text', line', rest, met⟩ := next_token valid (.inl more) spaced line
  exact ⟨text', line', rest, does met⟩

theorem Advances.word {token : List Char} (word : w.WellFormed) (written : w.Token token)
    (more : us ≠ []) : Advances (token :: us) us done current done (w :: current) := by
  obtain ⟨l, valid, rfl, adds⟩ := exists_lexeme word written
  exact .lexeme valid more adds

theorem Advances.words {ws : List Word} (written : List.Forall₂ Word.Token ws ts)
    (words : ∀ w ∈ ws, w.WellFormed) (more : us ≠ []) :
    Advances (ts ++ us) us done current done (ws.reverse ++ current) := by
  induction written generalizing current with
  | nil => exact .refl
  | @cons w t ws ts first _ ih =>
    obtain ⟨word, others⟩ := List.forall_mem_cons.mp words
    rw [List.reverse_cons, List.append_assoc]
    exact (Advances.word word first (List.append_ne_nil_of_right_ne_nil ts more)).trans
      (ih others)

theorem Advances.marker (m : Marker) (name : String) (more : us ≠ []) :
    Advances (m.text.toList :: us) us done [.var name] done [m.word name] := by
  have valid : (Lexeme.word m.text.toList).Valid := by
    cases m <;> exact ⟨by decide, List.all_eq_true.mp rfl⟩
  have marks : role m.text.toList = .marker m := by
    cases m <;> rfl
  exact .lexeme valid more fun met => sentenceFrom_marker met marks

theorem Advances.divider {divider : String} (divides : divider = "if" ∨ divider = "and")
    (any : current ≠ []) (more : us ≠ []) :
    Advances (divider.toList :: us) us done current (current.reverse :: done) [] := by
  have valid : (Lexeme.word divider.toList).Valid := by
    rcases divides with rfl | rfl <;> exact ⟨by decide, List.all_eq_true.mp rfl⟩
  have separates : role divider.toList = .separator := by
    rcases divides with rfl | rfl <;> rfl
  exact .lexeme valid more fun met => sentenceFrom_divider met separates any

/-- A written element becomes the current one. -/
theorem Advances.element (format : e.WellFormed) (written : e.Tokens ts) (more : us ≠ []) :
    Advances (ts ++ us) us done [] done e.reverse := by
  obtain ⟨w, ws, rfl, leads, others⟩ := format
  cases written with
  | plain words =>
    have word : w.WellFormed := by
      rcases leads with word | ⟨m, name, rfl, -⟩
      · exact word
      · cases words with
        | cons first _ => cases m <;> cases first
    rw [← List.append_nil (w :: ws).reverse]
    exact .words words (List.forall_mem_cons.mpr ⟨word, others⟩) more
  | @marked m name _ ts words =>
    have capital : (Word.var name).WellFormed := by
      rcases leads with word | ⟨m', name', same, capital⟩
      · cases m <;> cases word
      · cases m <;> cases m' <;> cases same <;> exact capital
    have more' := List.append_ne_nil_of_right_ne_nil ts more
    rw [List.reverse_cons]
    exact (Advances.word capital (.var name) (List.cons_ne_nil _ _)).trans
      ((Advances.marker m name more').trans (.words words others more))

theorem Advances.divided {divider : String} (format : e.WellFormed) (written : e.Tokens ts)
    (divides : divider = "if" ∨ divider = "and") (more : us ≠ []) :
    Advances (ts ++ divider.toList :: us) us done [] (e :: done) [] := by
  have any : e.reverse ≠ [] := by simpa using format.ne_nil
  have opened : Advances (ts ++ divider.toList :: us) (divider.toList :: us) done [] done
      e.reverse := .element format written (List.cons_ne_nil _ _)
  have closed := opened.trans (.divider divides any more)
  rwa [List.reverse_reverse] at closed

theorem sentenceFrom_tokens (format : ∀ e ∈ s, Element.WellFormed e) (written : s.Tokens ts)
    (start : Nat) (done : List Element) {text : List Char} (line : Nat)
    (spaced : Spaced (ts ++ us) text) :
    ∃ text' line', Spaced us text' ∧
      sentenceFrom start done [] ⟨text, line⟩ = .sentence (done.reverse ++ s) ⟨text', line'⟩ := by
  induction written generalizing done text line with
  | @last e ts element =>
    rw [List.append_assoc] at spaced
    have format := List.forall_mem_singleton.mp format
    obtain ⟨text₁, line₁, spaced₁, read⟩ :=
      Advances.element format element (List.cons_ne_nil _ _) start text line spaced
    obtain ⟨text₂, line₂, spaced₂, met⟩ := next_token (l := .stop) trivial (.inr rfl) spaced₁ line₁
    refine ⟨text₂, line₂, spaced₂, ?_⟩
    rw [read, sentenceFrom_stop met (by simpa using format.ne_nil), List.reverse_reverse,
      List.reverse_cons]
  | @cons e s ts us' divider element divides rest ih =>
    obtain ⟨here, others⟩ := List.forall_mem_cons.mp format
    rw [List.append_assoc] at spaced
    have more : us' ++ us ≠ [] := List.append_ne_nil_of_left_ne_nil rest.ne_nil us
    obtain ⟨text₁, line₁, spaced₁, read⟩ :=
      Advances.divided here element divides more start text line spaced
    obtain ⟨text₂, line₂, spaced₂, later⟩ := ih others (e :: done) line₁ spaced₁
    refine ⟨text₂, line₂, spaced₂, ?_⟩
    rw [read, later, List.reverse_cons, List.append_assoc, List.singleton_append]

theorem sentence_ended {text : List Char} (spaced : Spaced [] text) (line : Nat) :
    sentence ⟨text, line⟩ = .ended := by
  cases spaced with
  | nil spacing =>
    obtain ⟨line', skipped⟩ := skip_spacing spacing [] line
    rw [List.append_nil, show skip .blanks [] line' = ⟨[], line'⟩ from rfl] at skipped
    have met : next ⟨text, line⟩ = (none, ⟨[], line'⟩) := by
      unfold next
      rw [skipped]
    rw [sentence, sentenceFrom]
    split
    all_goals simp_all

theorem sentences_tokens {ss : List Sentence} {tss : List (List (List Char))}
    (format : ∀ s ∈ ss, s.WellFormed) (written : List.Forall₂ Sentence.Tokens ss tss)
    {text : List Char} (line : Nat) (spaced : Spaced tss.flatten text) :
    sentences ⟨text, line⟩ = .ok ss := by
  induction written generalizing text line with
  | nil =>
    have ended := sentence_ended spaced line
    rw [sentences]
    split
    all_goals simp_all
  | @cons s ts ss tss first _ ih =>
    obtain ⟨here, others⟩ := List.forall_mem_cons.mp format
    obtain ⟨text', line', spaced', read⟩ :=
      sentenceFrom_tokens here.element first line [] line spaced
    have rest := ih others line' spaced'
    have found : sentence ⟨text, line⟩ = .sentence s ⟨text', line'⟩ := read
    rw [sentences]
    split
    all_goals simp_all

end

end Reader

/-! ### Whatever is well-formed can be written -/

theorem Word.WellFormed.exists_token {w : Word} (word : w.WellFormed) : ∃ t, w.Token t := by
  cases w with
  | const name => exact ⟨_, .const name⟩
  | number n =>
    obtain ⟨k, rfl⟩ := Int.eq_ofNat_of_zero_le word.1
    exact ⟨_, .number (numeral_repr k)⟩
  | var name => exact ⟨_, .var name⟩
  | holds name => exact word.elim
  | lists name => exact word.elim

theorem exists_words {ws : List Word} (words : ∀ w ∈ ws, w.WellFormed) :
    ∃ ts, List.Forall₂ Word.Token ws ts := by
  choose! token written using fun w member => (words w member).exists_token
  exact ⟨ws.map token, List.forall₂_map_right_iff.mpr (List.forall₂_same.mpr written)⟩

theorem Element.WellFormed.exists_tokens {e : Element} (format : e.WellFormed) :
    ∃ ts, e.Tokens ts := by
  obtain ⟨w, ws, rfl, word | ⟨m, name, rfl, -⟩, others⟩ := format
  · obtain ⟨ts, written⟩ := exists_words (List.forall_mem_cons.mpr ⟨word, others⟩)
    exact ⟨ts, .plain written⟩
  · obtain ⟨ts, written⟩ := exists_words others
    exact ⟨_, .marked m name written⟩

theorem Sentence.WellFormed.exists_tokens {s : Sentence} (format : s.WellFormed) :
    ∃ ts, s.Tokens ts := by
  obtain ⟨any, elements⟩ := format
  induction s with
  | nil => exact absurd rfl any
  | cons e s ih =>
    obtain ⟨here, others⟩ := List.forall_mem_cons.mp elements
    obtain ⟨ts, written⟩ := here.exists_tokens
    cases s with
    | nil => exact ⟨_, .last written⟩
    | cons e' s =>
      obtain ⟨us, rest⟩ := ih (List.cons_ne_nil e' s) others
      exact ⟨_, .cons written (.inl rfl) rest⟩

theorem exists_spaced (tokens : List (List Char)) :
    ∃ text, Spaced tokens text ∧ (tokens ≠ [] → ∃ cs, text = ' ' :: cs) := by
  induction tokens with
  | nil => exact ⟨[], .nil .nil, fun any => absurd rfl any⟩
  | cons token tokens ih =>
    obtain ⟨text, spaced, space⟩ := ih
    refine ⟨[' '] ++ token ++ text, .cons (.blank (by decide) .nil) spaced fun any => ?_,
      fun _ => ⟨token ++ text, rfl⟩⟩
    obtain ⟨cs, rfl⟩ := space any
    exact ⟨' ', cs, rfl, by decide⟩

theorem exists_writes {ss : List Sentence} (format : ∀ s ∈ ss, s.WellFormed) :
    ∃ text, Writes text ss := by
  choose! tokens written using fun s member => (format s member).exists_tokens
  obtain ⟨text, spaced, -⟩ := exists_spaced (ss.map tokens).flatten
  refine ⟨String.ofList text, ss.map tokens, ?_, by rwa [String.toList_ofList]⟩
  exact List.forall₂_map_right_iff.mpr (List.forall₂_same.mpr written)

/-- The reader returns exactly the well-formed sentences. -/
theorem exists_readProgram_iff {ss : List Sentence} :
    (∃ text, readProgram text = .ok ss) ↔ ∀ s ∈ ss, s.WellFormed := by
  constructor
  · rintro ⟨text, read⟩
    exact wellFormed_of_readProgram read
  · intro format
    obtain ⟨text, tss, written, spaced⟩ := exists_writes format
    exact ⟨text, Reader.sentences_tokens format written 1 spaced⟩

/-- A text that writes well-formed sentences is read as these, and no text is read as
anything but well-formed sentences. -/
theorem readProgram_format (text : String) (ss : List Sentence) :
    ((∀ s ∈ ss, s.WellFormed) → Writes text ss → readProgram text = .ok ss) ∧
      (readProgram text = .ok ss → ∀ s ∈ ss, s.WellFormed) := by
  refine ⟨fun format => ?_, wellFormed_of_readProgram⟩
  rintro ⟨tss, written, spaced⟩
  exact Reader.sentences_tokens format written 1 spaced

/-- A fact, and a clause with an equation, leading zeros, a sign and comments. -/
theorem readProgram_note :
    readProgram "p . q if X holds / 007 /* a list */ . // end\n" =
      .ok [[[.const "p"]], [[.const "q"], [.holds "X", .const "/", .number 7]]] := by
  have letter (c : Char) (name : String) (split : name.toList = [c]) (lower : c.isLower = true)
      (digit : c.isDigit = false) (free : name ∉ reserved) : (Word.const name).WellFormed := by
    refine .word c [] split (.inl lower) nofun free fun n digits => ?_
    rw [split] at digits
    rw [digits.digit c (List.mem_singleton.mpr rfl)] at digit
    cases digit
  have p := letter 'p' "p" rfl rfl rfl (by decide)
  have q := letter 'q' "q" rfl rfl rfl (by decide)
  have slash : (Word.const "/").WellFormed := .sign '/' rfl rfl rfl (by decide)
  have seven : (Word.number 7).WellFormed := ⟨by decide, by decide⟩
  have marked : Word.Leads (.holds "X") := .inr ⟨.holds, "X", rfl, 'X', [], rfl, .inl rfl, nofun⟩
  have format : ∀ s ∈ [[[Word.const "p"]],
      [[.const "q"], [.holds "X", .const "/", .number 7]]], Sentence.WellFormed s := by
    refine List.forall_mem_cons.mpr ⟨⟨by simp, ?_⟩, List.forall_mem_singleton.mpr ⟨by simp, ?_⟩⟩
    · exact List.forall_mem_singleton.mpr ⟨_, [], rfl, .inl p, nofun⟩
    · refine List.forall_mem_cons.mpr ⟨⟨_, [], rfl, .inl q, nofun⟩, ?_⟩
      refine List.forall_mem_singleton.mpr ⟨_, _, rfl, marked, ?_⟩
      exact List.forall_mem_cons.mpr ⟨slash, List.forall_mem_singleton.mpr seven⟩
  have first : Sentence.Tokens [[.const "p"]] [['p'], ['.']] :=
    .last (.plain (.cons (.const "p") .nil))
  have digits : Numeral ['0', '0', '7'] 7 := ⟨by decide, List.all_eq_true.mp rfl, rfl⟩
  have second : Sentence.Tokens [[.const "q"], [.holds "X", .const "/", .number 7]]
      [['q'], ['i', 'f'], ['X'], ['h', 'o', 'l', 'd', 's'], ['/'], ['0', '0', '7'], ['.']] :=
    .cons (.plain (.cons (.const "q") .nil)) (.inl rfl)
      (.last (.marked .holds "X" (.cons (.const "/") (.cons (.number digits) .nil))))
  have space : Spacing [' '] := .blank rfl .nil
  have comment : Spacing (' ' :: '/' :: '*' :: ([' ', 'a', ' ', 'l', 'i', 's', 't', ' '] ++
      '*' :: '/' :: [' '])) :=
    .blank rfl (.block (by decide) space)
  have ending : Spacing (' ' :: '/' :: '/' :: ([' ', 'e', 'n', 'd'] ++ '\n' :: [])) :=
    .blank rfl (.line (by decide) .nil)
  refine (readProgram_format _ _).1 format ⟨_, .cons first (.cons second .nil), ?_⟩
  have apart {tokens : List (List Char)} {cs : List Char} :
      tokens ≠ [] → ∃ c ds, ' ' :: cs = c :: ds ∧ Reader.isBlank c = true :=
    fun _ => ⟨' ', cs, rfl, rfl⟩
  exact .cons .nil (.cons space (.cons space (.cons space (.cons space (.cons space (.cons space
    (.cons space (.cons comment (.nil ending) apart) apart) apart) apart) apart) apart) apart)
    apart) apart

end HornMachine
