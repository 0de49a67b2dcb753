import HornMachine.Proofs.Linkage
import HornMachine.Proofs.SentenceFormat

/-!
# Sentences that were read

Whatever text the reader accepts, what it returns is well-formed: it ends an element
only where it has words, and turns the first word of an element into the marker of an
equation only where it is a variable.
-/
namespace HornMachine.Reader

/-! ### Gaps and lexemes -/

theorem skip_blanks {c : Char} {cs : List Char}
    (going : c = '/' → ∀ d ds, cs = d :: ds → d ≠ '/' ∧ d ≠ '*') (line : Nat) :
    skip .blanks (c :: cs) line =
      if isBlank c then skip .blanks cs (lineAfter c line) else ⟨c :: cs, line⟩ := by
  rw [skip.eq_def]
  split
  all_goals grind

theorem skip_slashes (cs : List Char) (line : Nat) :
    skip .blanks ('/' :: '/' :: cs) line = skip .lineComment cs line :=
  rfl

theorem skip_slash_star (cs : List Char) (line : Nat) :
    skip .blanks ('/' :: '*' :: cs) line = skip .blockComment cs line :=
  rfl

theorem skip_lineComment (c : Char) (cs : List Char) (line : Nat) :
    skip .lineComment (c :: cs) line =
      skip (if c = '\n' then .blanks else .lineComment) cs (lineAfter c line) := by
  rw [skip.eq_def]
  split
  all_goals grind

theorem skip_blockComment {c : Char} {cs : List Char} (going : c = '*' → ∀ ds, cs ≠ '/' :: ds)
    (line : Nat) :
    skip .blockComment (c :: cs) line = skip .blockComment cs (lineAfter c line) := by
  rw [skip.eq_def]
  split
  all_goals grind

theorem skip_visible {c : Char} {cs : List Char} (visible : isBlank c = false)
    (going : c = '/' → ∀ d ds, cs = d :: ds → d ≠ '/' ∧ d ≠ '*') (line : Nat) :
    skip .blanks (c :: cs) line = ⟨c :: cs, line⟩ := by
  rw [skip_blanks going, visible, if_neg Bool.false_ne_true]

theorem isBlank_of_skip {g : Gap} {cs cs' : List Char} {c : Char} {line line' : Nat}
    (skipped : skip g cs line = ⟨c :: cs', line'⟩) : isBlank c = false := by
  fun_induction skip g cs line with
  | case1 => cases skipped
  | case2 _ _ ih | case3 _ _ ih => exact ih skipped
  | case4 _ _ _ _ _ _ ih => exact ih skipped
  | case5 _ _ _ _ _ visible =>
    cases skipped
    simpa using visible
  | case6 _ _ _ ih => exact ih skipped
  | case7 _ _ ih => exact ih skipped
  | case8 _ _ _ _ ih => exact ih skipped

theorem next_of_skip {r : Reader} {c : Char} {cs rest : List Char} {line : Nat} {l : Lexeme}
    (skipped : skip .blanks r.rest r.line = ⟨c :: cs, line⟩) (met : lexeme c cs = (l, rest)) :
    r.next = (some l, ⟨rest, line⟩) := by
  unfold next
  rw [skipped]
  dsimp only
  rw [met]

theorem valid_lexeme {c : Char} (visible : isBlank c = false) (cs : List Char) :
    (lexeme c cs).1.Valid := by
  unfold lexeme
  split
  · trivial
  · next going =>
    split
    · next inside =>
      refine ⟨List.cons_ne_nil _ _, List.forall_mem_cons.mpr ⟨inside, ?_⟩⟩
      exact List.all_eq_true.mp List.all_takeWhile
    · next apart => exact ⟨visible, by simpa using apart, going⟩

theorem valid_of_next {r r' : Reader} {l : Lexeme} (met : r.next = (some l, r')) : l.Valid := by
  unfold next at met
  split at met
  · cases met
  · next c cs line skipped =>
    cases met
    exact valid_lexeme (isBlank_of_skip skipped) cs

theorem rest_of_next_none {r r' : Reader} (ended : r.next = (none, r')) : r'.rest = [] := by
  unfold next at ended
  split at ended
  · cases ended
    rfl
  · cases ended

/-! ### Sentences -/

/-- Words read so far are fine to go on from. -/
structure Fine (done : List Element) (current : Element) : Prop where
  done : ∀ e ∈ done, Element.WellFormed e
  current : current ≠ [] → Element.WellFormed current.reverse

theorem Fine.push {done : List Element} {current : Element} {w : Word}
    (fine : Fine done current) (word : w.WellFormed) : Fine done (w :: current) where
  done := fine.done
  current _ := by
    rw [List.reverse_cons]
    exact .snoc (fun any => fine.current (by simpa using any)) word

theorem Fine.close {done : List Element} {current : Element} (fine : Fine done current)
    (any : current ≠ []) : Fine (current.reverse :: done) [] where
  done := List.forall_mem_cons.mpr ⟨fine.current any, fine.done⟩
  current := fun none => absurd rfl none

theorem Fine.mark {done : List Element} {name : String} (fine : Fine done [.var name])
    (m : Marker) : Fine done [m.word name] where
  done := fine.done
  current _ := by
    obtain ⟨w, ws, same, leads, -⟩ := fine.current (List.cons_ne_nil _ _)
    obtain ⟨rfl, rfl⟩ := List.cons.inj same
    rcases leads with capital | ⟨m', _, same, capital⟩
    · exact ⟨_, [], rfl, .inr ⟨m, name, rfl, capital⟩, nofun⟩
    · cases m' <;> cases same

theorem wellFormed_of_sentenceFrom {start : Nat} {done : List Element} {current : Element}
    {r r' : Reader} {s : Sentence} (fine : Fine done current)
    (read : sentenceFrom start done current r = .sentence s r') : s.WellFormed := by
  fun_induction sentenceFrom start done current r with
  | case1 | case2 | case3 | case6 | case9 | case10 => cases read
  | case4 done current r behind _ any =>
    cases read
    have closed := fine.close (by simpa using any)
    exact ⟨by simp, fun e member => closed.done e (List.mem_reverse.mp member)⟩
  | case5 done current r c behind met ih =>
    obtain ⟨visible, apart, going⟩ := valid_of_next met
    refine ih (fine.push ?_) read
    exact .sign c (String.toList_singleton c) visible apart going
  | case7 done current r text behind _ _ any ih =>
    have closed := fine.close (by simpa using any)
    have same : current.attach.reverse.unattach = current.reverse := by simp
    rw [same] at ih
    exact ih closed read
  | case8 done r text behind _ m _ name ih => exact ih (fine.mark m) read
  | case11 done current r text behind met w role ih =>
    obtain ⟨free, rfl⟩ := role_eq_plain.mp role
    exact ih (fine.push (wellFormed_classify (valid_of_next met) free)) read

theorem wellFormed_of_sentences {r : Reader} {ss : List Sentence} (read : r.sentences = .ok ss) :
    ∀ s ∈ ss, s.WellFormed := by
  fun_induction sentences r generalizing ss with
  | case1 r _ =>
    cases read
    exact nofun
  | case2 r e behind _ => cases read
  | case3 r s behind found ih =>
    cases rest : behind.sentences with
    | error e =>
      rw [rest] at read
      cases read
    | ok ss' =>
      rw [rest] at read
      cases read
      intro s' member
      rcases List.mem_cons.mp member with rfl | later
      · exact wellFormed_of_sentenceFrom ⟨by simp, fun none => absurd rfl none⟩ found
      · exact ih rest s' later

end HornMachine.Reader

namespace HornMachine

theorem wellFormed_of_readProgram {text : String} {ss : List Sentence}
    (read : readProgram text = .ok ss) : ∀ s ∈ ss, s.WellFormed :=
  Reader.wellFormed_of_sentences read

theorem Sentence.WellFormed.readable {s : Sentence} (format : s.WellFormed) : s.Readable where
  nonempty := by
    intro member
    obtain ⟨w, ws, same, -⟩ := format.element [] member
    cases same
  number := by
    intro e member n inside
    obtain ⟨w, ws, rfl, leads, others⟩ := format.element e member
    rcases List.mem_cons.mp inside with rfl | later
    · rcases leads with number | ⟨m, name, same, -⟩
      · exact number
      · cases m <;> cases same
    · exact others _ later

theorem readable_of_readProgram {text : String} {ss : List Sentence}
    (read : readProgram text = .ok ss) : ∀ s ∈ ss, s.Readable :=
  fun s member => (wellFormed_of_readProgram read s member).readable

end HornMachine
