import HornMachine.Proofs.ByteReading

/-!
# Progress of the reader

A call on a reader ends at the end of the text, or it moves the reader on, whether it
returns a sentence or an error. A call that refuses a sentence has passed a lexeme first:
only the end of the text is met without one, and then no sentence is open unless a lexeme
was passed before.
-/
namespace HornMachine

namespace Reader

open ByteReader

/-! ### Sentences -/

/-- What a reading comes to, with the offset where it leaves the text. -/
inductive Reading.ToldAt (text : String) : Reading → Result → Nat → Prop
  | ended : ToldAt text .ended (.ok none) text.utf8ByteSize
  | sentence {s : Sentence} {r : Reader} {pos : Nat} (stands : r.StandsAt text pos) :
    ToldAt text (.sentence s r) (.ok (some s)) pos
  | refused {e : LoadError} {r : Reader} {pos : Nat} (stands : r.StandsAt text pos) :
    ToldAt text (.refused e r) (.error e) pos

section

variable {text : String} {start from' pos pos' fuel : Nat} {done : List Element}
  {current : List Word} {r r' : Reader} {l : Lexeme} {e : LoadError}

theorem StandsAt.meet_none (stands : r.StandsAt text pos) (enough : r.rest.length < fuel)
    (ended : r.next = (none, r')) :
    ∃ onward, r'.StandsAt text text.utf8ByteSize ∧
      ByteReader.sentenceFrom text from' fuel done current pos =
        meet text from' onward done current none text.utf8ByteSize := by
  obtain ⟨fuel, rfl⟩ := Nat.exists_eq_add_one_of_ne_zero (Nat.ne_zero_of_lt enough)
  obtain ⟨pos', met, there⟩ := stands.exists_next enough
  rw [ended] at met there
  have size := there.size
  rw [rest_of_next_none ended, String.utf8Len_nil, Nat.add_zero] at size
  rw [size] at met there
  refine ⟨ByteReader.sentenceFrom text from' fuel, there, ?_⟩
  rw [ByteReader.sentenceFrom, met, Halt.ok_bind]

theorem StandsAt.meet_some (stands : r.StandsAt text pos) (enough : r.rest.length < fuel)
    (met : r.next = (some l, r')) :
    ∃ fuel' pos', r'.StandsAt text pos' ∧ r'.rest.length < fuel' ∧
      ByteReader.sentenceFrom text from' fuel done current pos =
        meet text from' (ByteReader.sentenceFrom text from' fuel') done current (some l) pos' := by
  obtain ⟨fuel, rfl⟩ := Nat.exists_eq_add_one_of_ne_zero (Nat.ne_zero_of_lt enough)
  obtain ⟨pos', found, there⟩ := stands.exists_next enough
  have shorter := length_lt_of_next met
  rw [met] at found there
  refine ⟨fuel, pos', there, shorter.trans_le (Nat.le_of_lt_succ enough), ?_⟩
  rw [ByteReader.sentenceFrom, found, Halt.ok_bind]

/-- The rest of a sentence is read as the reader reads it, one branch for each of its. -/
theorem StandsAt.exists_sentenceFrom (stands : r.StandsAt text pos)
    (enough : r.rest.length < fuel) (begun : lineAt text from' = .ok start) :
    ∃ result pos', ByteReader.sentenceFrom text from' fuel done current pos = .ok (result, pos') ∧
      (sentenceFrom start done current r).ToldAt text result pos' := by
  fun_induction sentenceFrom start done current r generalizing pos fuel with
  | case1 done current r r' found empty =>
    obtain ⟨onward, -, same⟩ := stands.meet_none enough found
    rw [same, meet, if_pos empty]
    exact ⟨_, _, rfl, .ended⟩
  | case2 done current r r' found some =>
    obtain ⟨onward, there, same⟩ := stands.meet_none enough found
    rw [same, meet, if_neg some, begun]
    exact ⟨_, _, rfl, .refused there⟩
  | case3 done current r r' found empty =>
    obtain ⟨fuel, pos', there, -, same⟩ := stands.meet_some enough found
    rw [same, meet, if_pos empty, there.lineAt_eq]
    exact ⟨_, _, rfl, .refused there⟩
  | case4 done current r r' found some =>
    obtain ⟨fuel, pos', there, -, same⟩ := stands.meet_some enough found
    rw [same, meet, if_neg some]
    exact ⟨_, _, rfl, .sentence there⟩
  | case5 done current r c r' found ih =>
    obtain ⟨fuel, pos', there, less, same⟩ := stands.meet_some enough found
    rw [same]
    exact ih there less
  | case6 done current r word r' found role empty =>
    obtain ⟨fuel, pos', there, -, same⟩ := stands.meet_some enough found
    rw [same, meet, role]
    dsimp only
    rw [if_pos empty, there.lineAt_eq]
    exact ⟨_, _, rfl, .refused there⟩
  | case7 done current r word r' found role some ih =>
    obtain ⟨fuel, pos', there, less, same⟩ := stands.meet_some enough found
    rw [List.unattach_reverse, List.unattach_attach] at ih
    rw [same, meet, role]
    dsimp only
    rw [if_neg some]
    exact ih there less
  | case8 done r word r' found m role name ih =>
    obtain ⟨fuel, pos', there, less, same⟩ := stands.meet_some enough found
    rw [same, meet, role]
    exact ih there less
  | case9 done current r word r' found m role other =>
    obtain ⟨fuel, pos', there, -, same⟩ := stands.meet_some enough found
    rw [same, meet, role]
    dsimp only
    rw [there.lineAt_eq]
    split
    · next name => exact (other name rfl).elim
    · exact ⟨_, _, rfl, .refused there⟩
  | case10 done current r word r' found role =>
    obtain ⟨fuel, pos', there, -, same⟩ := stands.meet_some enough found
    rw [same, meet, role]
    dsimp only
    rw [there.lineAt_eq]
    exact ⟨_, _, rfl, .refused there⟩
  | case11 done current r word r' found w role ih =>
    obtain ⟨fuel, pos', there, less, same⟩ := stands.meet_some enough found
    rw [same, meet, role]
    exact ih there less

theorem StandsAt.exists_sentence (stands : r.StandsAt text pos) (enough : r.rest.length < fuel) :
    ∃ result pos', ByteReader.sentence text fuel pos = .ok (result, pos') ∧
      r.sentence.ToldAt text result pos' :=
  stands.exists_sentenceFrom enough stands.lineAt_eq

/-! ### Progress -/

/-- An error leaves less text, unless the end is met inside a sentence. -/
theorem length_lt_of_refused (refused : sentenceFrom start done current r = .refused e r') :
    r'.rest.length < r.rest.length ∨
      (done.isEmpty && current.isEmpty) = false ∧ r'.rest = [] := by
  have onward {inside : Prop} {r r₁ : Reader} (shorter : r₁.rest.length < r.rest.length)
      (later : r'.rest.length < r₁.rest.length ∨ inside ∧ r'.rest = []) :
      r'.rest.length < r.rest.length := by
    rcases later with less | ⟨-, none⟩
    · exact less.trans shorter
    · rw [none]
      exact Nat.zero_lt_of_lt shorter
  fun_induction sentenceFrom start done current r with
  | case1 | case4 => cases refused
  | case2 _ _ _ _ found some =>
    cases refused
    exact .inr ⟨eq_false_of_ne_true some, rest_of_next_none found⟩
  | case3 _ _ _ _ found | case6 _ _ _ _ _ found | case9 _ _ _ _ _ found
  | case10 _ _ _ _ _ found =>
    cases refused
    exact .inl (length_lt_of_next found)
  | case5 _ _ _ _ _ found ih | case8 _ _ _ _ found _ _ _ ih | case11 _ _ _ _ _ found _ _ ih =>
    exact .inl (onward (length_lt_of_next found) (ih refused))
  | case7 _ _ _ _ _ found _ _ ih =>
    rw [List.unattach_reverse, List.unattach_attach] at ih
    exact .inl (onward (length_lt_of_next found) (ih refused))

theorem StandsAt.lt (stands : r.StandsAt text pos) (there : r'.StandsAt text pos')
    (shorter : r'.rest.length < r.rest.length) : pos < pos' := by
  obtain ⟨front, split, -, rfl⟩ := stands
  obtain ⟨front', split', -, rfl⟩ := there
  rcases List.append_eq_append_iff.mp (split.symm.trans split') with
    ⟨passed, rfl, left⟩ | ⟨passed, rfl, left⟩
  · cases passed with
    | nil =>
      rw [left] at shorter
      exact absurd shorter (Nat.lt_irrefl _)
    | cons c cs =>
      rw [String.utf8Len_append, String.utf8Len_cons]
      have := c.utf8Size_pos
      omega
  · rw [left, List.length_append] at shorter
    omega

theorem StandsAt.exists_behind {result : Result} (stands : r.StandsAt text pos)
    (told : r.sentence.ToldAt text result pos') :
    ∃ r' : Reader, r'.StandsAt text pos' ∧
      (result = .ok none ∧ pos' = text.utf8ByteSize ∧ r'.rest = [] ∨
        result ≠ .ok none ∧ pos < pos' ∧ r'.rest.length < r.rest.length) := by
  generalize read : r.sentence = reading at told
  cases told with
  | ended => exact ⟨_, stands.atEnd, .inl ⟨rfl, rfl, rfl⟩⟩
  | sentence there =>
    have shorter := length_lt_of_sentence read
    exact ⟨_, there, .inr ⟨nofun, stands.lt there shorter, shorter⟩⟩
  | refused there =>
    rcases length_lt_of_refused read with shorter | ⟨begun, -⟩
    · exact ⟨_, there, .inr ⟨nofun, stands.lt there shorter, shorter⟩⟩
    · cases begun

/-! ### Runs -/

theorem after_succ {n : Nat} (run : after text fuel n pos = .ok pos') :
    after text fuel (n + 1) pos = (·.2) <$> ByteReader.sentence text fuel pos' := by
  induction n generalizing pos with
  | zero =>
    cases run
    rw [after]
    cases ByteReader.sentence text fuel pos' <;> rfl
  | succ n ih =>
    rw [after] at run ⊢
    cases called : ByteReader.sentence text fuel pos with
    | error halt =>
      rw [called] at run
      cases run
    | ok told =>
      rw [called] at run
      exact ih run

theorem StandsAt.exists_after (stands : r.StandsAt text pos) (enough : r.rest.length < fuel)
    (n : Nat) :
    ∃ r' pos', after text fuel n pos = .ok pos' ∧ StandsAt text r' pos' ∧
      r'.rest.length < fuel := by
  induction n generalizing r pos with
  | zero => exact ⟨r, pos, rfl, stands, enough⟩
  | succ n ih =>
    obtain ⟨result, pos₁, called, told⟩ := stands.exists_sentence enough
    obtain ⟨r₁, there, moved⟩ := stands.exists_behind told
    have fits : r₁.rest.length < fuel := by
      rcases moved with ⟨-, -, none⟩ | ⟨-, -, shorter⟩
      · rw [none]
        exact Nat.zero_lt_of_lt enough
      · exact shorter.trans enough
    rw [after, called, Halt.ok_bind]
    exact ih there fits

/-- The end of the text is reported after at most one call for each character left. -/
theorem StandsAt.reaches_end (stands : r.StandsAt text pos) (enough : r.rest.length < fuel) :
    ∃ n ≤ r.rest.length, ∃ pos', after text fuel n pos = .ok pos' ∧
      ByteReader.sentence text fuel pos' = .ok (.ok none, text.utf8ByteSize) := by
  induction left : r.rest.length using Nat.strong_induction_on generalizing r pos with
  | _ left' ih =>
    subst left
    obtain ⟨result, pos₁, called, told⟩ := stands.exists_sentence enough
    obtain ⟨r₁, there, ⟨rfl, rfl, -⟩ | ⟨-, -, shorter⟩⟩ := stands.exists_behind told
    · exact ⟨0, Nat.zero_le _, pos, rfl, called⟩
    · obtain ⟨n, few, pos', run, ended⟩ := ih _ shorter there (shorter.trans enough) rfl
      refine ⟨n + 1, few.trans_lt shorter, pos', ?_, ended⟩
      rw [after, called, Halt.ok_bind]
      exact run

theorem StandsAt.sentences_eq {calls : Nat} (stands : r.StandsAt text pos)
    (enough : r.rest.length < fuel) (often : r.rest.length < calls) :
    ByteReader.sentences text fuel calls pos = .ok r.sentences := by
  fun_induction sentences r generalizing pos calls with
  | case1 r found | case2 r e behind found =>
    obtain ⟨calls, rfl⟩ := Nat.exists_eq_add_one_of_ne_zero (Nat.ne_zero_of_lt often)
    obtain ⟨result, pos', called, told⟩ := stands.exists_sentence enough
    rw [found] at told
    cases told
    rw [ByteReader.sentences, called]
    rfl
  | case3 r s behind found ih =>
    obtain ⟨calls, rfl⟩ := Nat.exists_eq_add_one_of_ne_zero (Nat.ne_zero_of_lt often)
    obtain ⟨result, pos', called, told⟩ := stands.exists_sentence enough
    rw [found] at told
    cases told with
    | sentence there =>
      have shorter := length_lt_of_sentence found
      have often' : behind.rest.length < calls := shorter.trans_le (Nat.le_of_lt_succ often)
      have later := ih there (shorter.trans enough) often'
      rw [ByteReader.sentences, called, Halt.ok_bind]
      dsimp only
      rw [later]
      rfl

end

end Reader

/-- For every text and every number of calls on one reader, errors among them: the offset is at
the start of a character or at the end of the text. The next call returns; it reports
the end of the text and leaves the offset there, or it returns a sentence or an error and has
moved on. The end is reported after at most as many calls as there are characters, and
reading all sentences comes to an end. -/
theorem ByteReader.calls_progress (text : String) (fuel : Nat) (enough : text.length < fuel) :
    (∀ n, ∃ pos, after text fuel n 0 = .ok pos ∧
      (⟨pos⟩ : String.Pos.Raw).IsValid text ∧ pos ≤ text.utf8ByteSize ∧
      ∃ result pos', sentence text fuel pos = .ok (result, pos') ∧
        after text fuel (n + 1) 0 = .ok pos' ∧
        (result = .ok none ∧ pos' = text.utf8ByteSize ∨ result ≠ .ok none ∧ pos < pos') ∧
        ∃ r : Reader, r.StandsAt text pos ∧ r.sentence.ToldAt text result pos') ∧
    (∃ n ≤ text.length, ∃ pos, after text fuel n 0 = .ok pos ∧
      sentence text fuel pos = .ok (.ok none, text.utf8ByteSize)) ∧
    sentences text fuel fuel 0 = .ok (readProgram text) := by
  have begins := Reader.StandsAt.start text
  have short : (Reader.ofString text).rest.length < fuel := by
    rwa [Reader.ofString, String.length_toList]
  refine ⟨?_, ?_, begins.sentences_eq short short⟩
  · intro n
    obtain ⟨r, pos, run, stands, fits⟩ := begins.exists_after short n
    obtain ⟨result, pos', called, told⟩ := stands.exists_sentence fits
    obtain ⟨r', -, moved⟩ := stands.exists_behind told
    refine ⟨pos, run, stands.isValid, ?_, result, pos', called, ?_, ?_, r, stands, told⟩
    · exact Nat.le.intro stands.size
    · rw [Reader.after_succ run, called]
      rfl
    · exact moved.imp (fun ended => ⟨ended.1, ended.2.1⟩) (fun going => ⟨going.1, going.2.1⟩)
  · obtain ⟨n, few, pos, run, ended⟩ := begins.reaches_end short
    rw [Reader.ofString, String.length_toList] at few
    exact ⟨n, few, pos, run, ended⟩

theorem ByteReader.calls_progress_offsets :
    "p é .\n/*ü*/ if q ./*/".length < 22 ∧
    (∃ n ≤ 21, ∃ pos, after "p é .\n/*ü*/ if q ./*/" 22 n 0 = .ok pos ∧
      sentence "p é .\n/*ü*/ if q ./*/" 22 pos = .ok (.ok none, 23)) ∧
    (List.range 5).map (after "p é .\n/*ü*/ if q ./*/" 22 · 0) =
      [.ok 0, .ok 6, .ok 16, .ok 20, .ok 23] :=
  ⟨by decide, (calls_progress "p é .\n/*ü*/ if q ./*/" 22 (by decide)).2.1, by decide +kernel⟩

end HornMachine
