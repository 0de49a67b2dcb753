import HornMachine.Proofs.TermText

/-!
# Printed terms are unambiguous

The text of a term is compared with a text that starts with another term, as `f` and
`f(a)` do. What stands after a term does not continue a word or a number, so the first
characters tell which way of writing was used, and with it the parts. A functor can be
followed by arguments, so of two terms that are met at one place one can be the other
before further arguments; what follows decides whether it is.
-/
namespace HornMachine.Term

variable {f a b t u : Term} {ts us args : List Term} {s op op' : String} {x y : List Char}
  {c : Char} {a' b' : Term}

/-! ### Words, operators and numbers -/

/-- A text that does not continue a word or a number. -/
def Apart (x : List Char) : Prop := ∀ c ∈ x.head?, isTokenChar c = false

theorem apart_cons {c : Char} (other : isTokenChar c = false) : Apart (c :: x) := by
  intro d first
  rwa [← Option.some.inj first]

theorem token_append_inj {v w : List Char} (left : ∀ c ∈ v, isTokenChar c = true)
    (right : ∀ c ∈ w, isTokenChar c = true) (apart : Apart x) (apart' : Apart y)
    (same : v ++ x = w ++ y) : v = w ∧ x = y := by
  have taken {v x : List Char} (all : ∀ c ∈ v, isTokenChar c = true) (apart : Apart x) :
      (v ++ x).takeWhile isTokenChar = v := by
    rw [List.takeWhile_append_of_pos all]
    cases x with
    | nil => exact List.append_nil v
    | cons c x => rw [List.takeWhile_cons_of_neg (by simp [apart c rfl]), List.append_nil]
  have tokens : v = w := by rw [← taken left apart, same, taken right apart']
  exact ⟨tokens, List.append_cancel_left (tokens ▸ same)⟩

theorem repr_inj {m n : Int} (same : m.repr.toList = n.repr.toList) : m = n := by
  obtain ⟨cs, k, numeral, left⟩ := exists_numeral m
  obtain ⟨ds, l, numeral', right⟩ := exists_numeral n
  have unsigned {cs ds : List Char} {k : Nat} (numeral : Numeral cs k) : cs ≠ '-' :: ds := by
    rintro rfl
    exact absurd (numeral.digit '-' (List.mem_cons_self ..)) (by decide)
  rcases left with ⟨left, rfl⟩ | ⟨left, rfl⟩ <;> rcases right with ⟨right, rfl⟩ | ⟨right, rfl⟩ <;>
    rw [left, right] at same
  · rw [numeral.unique (same ▸ numeral')]
  · exact absurd same (unsigned numeral)
  · exact absurd same.symm (unsigned numeral')
  · rw [numeral.unique ((List.cons.inj same).2 ▸ numeral')]

theorem not_isDigit_of_isAlpha (alpha : c.isAlpha = true) : c.isDigit = false := by
  obtain ⟨upper, lower, digit⟩ := Reader.toNat_cases c
  rw [Bool.eq_false_iff, ne_eq, digit]
  rcases Bool.or_eq_true_iff.mp alpha with letter | letter
  · have code := upper.mp (.inl letter)
    omega
  · have code := lower.mp letter
    omega

theorem WellLabelled.ne_repr (well : WellLabelled (.label s)) (n : Int) :
    s.toList ≠ n.repr.toList := by
  intro same
  obtain ⟨cs, k, numeral, sign⟩ := exists_numeral n
  rcases well.named with word | operator
  · obtain ⟨d, ds, first, alpha, -⟩ := exists_of_isWord word
    rcases sign with ⟨whole, -⟩ | ⟨whole, -⟩
    · have digit := numeral.digit d (whole ▸ same ▸ first ▸ List.mem_cons_self ..)
      rw [not_isDigit_of_isAlpha alpha] at digit
      cases digit
    · obtain ⟨rfl, -⟩ := List.cons.inj (first.symm.trans (same.trans whole))
      revert alpha
      decide
  · obtain ⟨d, only, symbol⟩ := exists_of_isInfix operator
    obtain ⟨c, member⟩ := List.exists_mem_of_ne_nil cs numeral.nonempty
    have digit := numeral.digit c member
    have inside : c ∈ n.repr.toList := by
      rcases sign with ⟨whole, -⟩ | ⟨whole, -⟩
      · rwa [whole]
      · exact whole ▸ List.mem_cons_of_mem _ member
    obtain rfl := List.mem_singleton.mp (only ▸ same ▸ inside)
    obtain ((rfl | rfl) | rfl) | rfl := symbol <;> cases digit

/-! ### First characters -/

/-- What the first characters of a text tell about the term. -/
inductive Kind
  | token
  | empty
  | operation
  | list

def kindOf : List Char → Kind
  | [] => .token
  | c :: cs =>
    if c = '(' then .operation
    else if c = '[' then if cs.head? = some ']' then .empty else .list
    else .token

/-- A term that is not written as a functor before its arguments. -/
inductive Primitive : Kind → Term → Prop
  | label (s : String) : Primitive .token (.label s)
  | int (n : Int) : Primitive .token (.int n)
  | empty : Primitive .empty (.array [])
  | operation {op : String} (a b : Term) :
      isInfix op → Primitive .operation (.array [.label op, a, b])
  | list (a b : Term) : Primitive .list (.array [.label "list", a, b])

/-- A character that a term can start with. -/
def isOpening (c : Char) : Bool := isTokenChar c || c = '(' || c = '['

theorem kindOf_token (token : isTokenChar c = true) : kindOf (c :: x) = .token := by
  have round : c ≠ '(' := by
    rintro rfl
    cases token
  have square : c ≠ '[' := by
    rintro rfl
    cases token
  rw [kindOf, if_neg round, if_neg square]

theorem kindOf_list (opening : isOpening c = true) : kindOf ('[' :: c :: x) = .list := by
  have other : (c :: x).head? ≠ some ']' := by
    rintro ⟨⟩
    cases opening
  rw [kindOf, if_neg (by decide), if_pos rfl, if_neg other]

theorem Primitive.isTokenChar_of_mem (primitive : Primitive .token t) (well : WellLabelled t)
    (member : c ∈ text t) : isTokenChar c = true := by
  cases primitive with
  | label s =>
    rw [text] at member
    exact well.isTokenChar_of_mem member
  | int n =>
    rw [text] at member
    exact isTokenChar_of_mem_repr member

theorem Primitive.exists_token (primitive : Primitive .token t) (well : WellLabelled t) :
    ∃ c cs, text t = c :: cs ∧ isTokenChar c = true := by
  have nonempty : text t ≠ [] := by
    cases primitive with
    | label s =>
      rw [text]
      rcases well.named with word | operator
      · obtain ⟨c, cs, same, -⟩ := exists_of_isWord word
        exact same ▸ List.cons_ne_nil c cs
      · obtain ⟨c, same, -⟩ := exists_of_isInfix operator
        exact same ▸ List.cons_ne_nil c []
    | int n =>
      rw [text]
      obtain ⟨cs, k, numeral, ⟨same, -⟩ | ⟨same, -⟩⟩ := exists_numeral n
      · exact same ▸ numeral.nonempty
      · exact same ▸ List.cons_ne_nil '-' cs
  obtain ⟨c, cs, same⟩ := List.exists_cons_of_ne_nil nonempty
  exact ⟨c, cs, same, primitive.isTokenChar_of_mem well (same ▸ List.mem_cons_self ..)⟩

theorem Primitive.text_inj (primitive : Primitive .token t) (primitive' : Primitive .token u)
    (well : WellLabelled t) (well' : WellLabelled u) (same : text t = text u) : t = u := by
  cases primitive with
  | label s =>
    cases primitive' with
    | label s' =>
      rw [text, text] at same
      rw [String.toList_injective same]
    | int n =>
      rw [text, text] at same
      exact absurd same (well.ne_repr n)
  | int n =>
    cases primitive' with
    | label s =>
      rw [text, text] at same
      exact absurd same.symm (well'.ne_repr n)
    | int n' =>
      rw [text, text] at same
      rw [repr_inj same]

theorem WellLabelled.exists_opening (well : WellLabelled t) :
    ∃ c cs, text t = c :: cs ∧ isOpening c = true := by
  have token {t : Term} (primitive : Primitive .token t) (well : WellLabelled t) :
      ∃ c cs, text t = c :: cs ∧ isOpening c = true := by
    obtain ⟨c, cs, same, token⟩ := primitive.exists_token well
    exact ⟨c, cs, same, by simp [isOpening, token]⟩
  induction well with
  | @label s named => exact token (.label s) (.label named)
  | int n => exact token (.int n) (.int n)
  | @array ts wells ih =>
    cases form ts with
    | empty => exact ⟨_, _, text_empty, rfl⟩
    | operation a b operator => exact ⟨_, _, text_operation operator, rfl⟩
    | list a b => exact ⟨_, _, text_list, rfl⟩
    | call calls =>
      obtain ⟨c, cs, same, opening⟩ := ih _ (List.mem_cons_self ..)
      exact ⟨c, _, by rw [text_call calls, same, List.cons_append], opening⟩

/-- The first characters show the kind, whatever stands after the term. -/
theorem Primitive.kindOf_text {k : Kind} (primitive : Primitive k t) (well : WellLabelled t) :
    kindOf (text t ++ x) = k := by
  have token {t : Term} (primitive : Primitive .token t) (well : WellLabelled t) :
      kindOf (text t ++ x) = .token := by
    obtain ⟨c, cs, same, token⟩ := primitive.exists_token well
    rw [same]
    exact kindOf_token token
  cases primitive with
  | label s => exact token (.label s) well
  | int n => exact token (.int n) well
  | empty =>
    rw [text_empty]
    rfl
  | operation a b operator =>
    rw [text_operation operator]
    rfl
  | list a b =>
    obtain ⟨c, cs, same, opening⟩ := (well.items a (by simp)).exists_opening
    rw [text_list, same]
    exact kindOf_list opening

/-! ### One text, one term -/

/-- `t` before further lists of arguments, one after the other. -/
def applied (t : Term) (css : List (List Term)) : Term :=
  css.foldl (fun f args => .array (f :: args)) t

def textCalls (css : List (List Term)) : List Char :=
  css.flatMap fun args => '(' :: ((textItems args).tail ++ [')'])

/-- `u` has `t` before lists of arguments that `x` starts with. -/
def Extends (t u : Term) (x y : List Char) : Prop :=
  ∃ css, u = applied t css ∧ x = textCalls css ++ y

/-- A text that neither continues a word or a number nor gives a term arguments. -/
def Closed (x : List Char) : Prop := Apart x ∧ ∀ z, x ≠ '(' :: z

theorem closed_cons {c : Char} (other : isTokenChar c = false) (open' : c ≠ '(') :
    Closed (c :: x) :=
  ⟨apart_cons other, fun _ same => open' (List.cons.inj same).1⟩

theorem Extends.refl (t : Term) (x : List Char) : Extends t t x x := ⟨[], rfl, rfl⟩

theorem applied_concat (t : Term) (css : List (List Term)) (args : List Term) :
    applied t (css ++ [args]) = .array (applied t css :: args) := by
  rw [applied, List.foldl_append]
  rfl

theorem Extends.snoc {g : Term} {ds : List Term}
    (h : Extends t g x ('(' :: ((textItems ds).tail ++ ')' :: y))) :
    Extends t (.array (g :: ds)) x y := by
  obtain ⟨css, rfl, rfl⟩ := h
  exact ⟨css ++ [ds], (applied_concat t css ds).symm, by simp [textCalls]⟩

theorem Extends.eq (h : Extends t u x y) (closed : Closed x) : t = u ∧ x = y := by
  obtain ⟨css, rfl, rfl⟩ := h
  cases css with
  | nil => exact ⟨rfl, rfl⟩
  | cons args css => exact absurd rfl (closed.2 _)

theorem WellLabelled.of_applied (css : List (List Term)) (well : WellLabelled (applied t css)) :
    WellLabelled t := by
  induction css generalizing t with
  | nil => exact well
  | cons args css ih =>
    exact (ih well).items t (List.mem_cons_self ..)

theorem exists_applied_array (ts : List Term) (css : List (List Term)) :
    ∃ us, applied (.array ts) css = .array us := by
  induction css generalizing ts with
  | nil => exact ⟨ts, rfl⟩
  | cons args css ih => exact ih _

/-- A list has no array before its last two parts. -/
theorem Extends.eq_of_list (h : Extends (.array ts) (.array [.label s, a, b]) x y) :
    .array ts = Term.array [.label s, a, b] ∧ x = y := by
  obtain ⟨css, same, rfl⟩ := h
  rcases List.eq_nil_or_concat css with rfl | ⟨css, args, rfl⟩
  · exact ⟨same.symm, rfl⟩
  · obtain ⟨us, array⟩ := exists_applied_array ts css
    rw [List.concat_eq_append, applied_concat, array] at same
    cases same

/-- Before a text that stands apart, only `t` is written as `t` is, or a term that has `t`
before further arguments, or one that `t` has so. -/
def Settled (t : Term) : Prop :=
  ∀ u x y, WellLabelled u → Apart x → Apart y → text t ++ x = text u ++ y →
    Extends t u x y ∨ Extends u t y x

theorem Settled.eq (settled : Settled t) (well : WellLabelled u) (closed : Closed x)
    (closed' : Closed y) (same : text t ++ x = text u ++ y) : t = u ∧ x = y := by
  rcases settled u x y well closed.1 closed'.1 same with longer | longer
  · exact longer.eq closed
  · obtain ⟨rfl, rfl⟩ := longer.eq closed'
    exact ⟨rfl, rfl⟩

theorem closed_textItems (ts : List Term) (x : List Char) : Closed (textItems ts ++ ')' :: x) := by
  cases ts with
  | nil => exact closed_cons (by decide) (by decide)
  | cons t ts => exact closed_cons (by decide) (by decide)

theorem textItems_append_inj (settled : ∀ t ∈ ts, Settled t) (well : ∀ u ∈ us, WellLabelled u)
    (same : textItems ts ++ ')' :: x = textItems us ++ ')' :: y) : ts = us ∧ x = y := by
  induction ts generalizing us with
  | nil =>
    cases us with
    | nil => exact ⟨rfl, (List.cons.inj same).2⟩
    | cons u us => cases same
  | cons t ts ih =>
    cases us with
    | nil => cases same
    | cons u us =>
      obtain ⟨first, others⟩ := List.forall_mem_cons.mp settled
      obtain ⟨first', others'⟩ := List.forall_mem_cons.mp well
      simp only [textItems, List.cons_append, List.append_assoc, List.cons.injEq, true_and] at same
      obtain ⟨rfl, rest⟩ := first.eq first' (closed_textItems _ _) (closed_textItems _ _) same
      obtain ⟨rfl, rfl⟩ := ih others others' rest
      exact ⟨rfl, rfl⟩

theorem tail_textItems_append_inj (settled : ∀ t ∈ ts, Settled t)
    (well : ∀ t ∈ ts, WellLabelled t) (well' : ∀ u ∈ us, WellLabelled u)
    (same : (textItems ts).tail ++ ')' :: x = (textItems us).tail ++ ')' :: y) :
    ts = us ∧ x = y := by
  have opened {t : Term} {ts : List Term} {x y : List Char} (well : WellLabelled t) :
      (textItems (t :: ts)).tail ++ x ≠ ')' :: y := by
    obtain ⟨c, cs, first, opening⟩ := well.exists_opening
    rw [textItems, List.tail_cons, first]
    rintro ⟨⟩
    cases opening
  cases ts with
  | nil =>
    cases us with
    | nil => exact ⟨rfl, (List.cons.inj same).2⟩
    | cons u us => exact absurd same.symm (opened (well' u (List.mem_cons_self ..)))
  | cons t ts =>
    cases us with
    | nil => exact absurd same (opened (well t (List.mem_cons_self ..)))
    | cons u us => exact textItems_append_inj settled well' (congrArg (',' :: ·) same)

theorem textTail_list :
    textTail (.array [.label "list", a, b]) = ',' :: (text a ++ textTail b) := by
  rw [textTail, text_list]
  rfl

theorem textTail_cases (well : WellLabelled u) :
    (u = .label "nil" ∧ textTail u = [']']) ∨
      (∃ a b, u = .array [.label "list", a, b] ∧ textTail u = ',' :: (text a ++ textTail b)) ∨
      textTail u = '|' :: (text u ++ [']']) := by
  by_cases ends : isEnd u
  · obtain ⟨name, rfl, final⟩ := exists_of_isEnd ends
    simp only [isListEnd, Bool.or_eq_true, decide_eq_true_eq] at final
    rcases final with rfl | rfl
    · exact absurd well.named (by decide)
    · exact .inl ⟨rfl, rfl⟩
  · by_cases cell : isCell "list" u
    · obtain ⟨a, b, rfl⟩ := exists_of_isCell cell
      exact .inr (.inl ⟨a, b, rfl, textTail_list⟩)
    · exact .inr (.inr (by rw [textTail, if_neg ends, if_neg cell]))

theorem closed_textTail (well : WellLabelled u) : Closed (textTail u ++ x) := by
  rcases textTail_cases well with ⟨-, same⟩ | ⟨a, b, -, same⟩ | same <;> rw [same] <;>
    exact closed_cons (by decide) (by decide)

/-- The tails of two lists that are written alike are one. -/
theorem Settled.textTail_eq (settled : Settled t) (well : WellLabelled t) (well' : WellLabelled u)
    (apart : Apart x) (apart' : Apart y) (same : textTail t ++ x = textTail u ++ y) :
    t = u ∧ x = y := by
  rcases textTail_cases well with ⟨rfl, left⟩ | ⟨a, b, rfl, left⟩ | left <;> rw [left] at same
  · rcases textTail_cases well' with ⟨rfl, -⟩ | ⟨a', b', rfl, right⟩ | right
    · rw [left] at same
      exact ⟨rfl, (List.cons.inj same).2⟩
    · rw [right] at same
      cases same
    · rw [right] at same
      cases same
  · rcases textTail_cases well' with ⟨rfl, right⟩ | ⟨a', b', rfl, right⟩ | right <;>
      rw [right] at same
    · cases same
    · have lists : text (.array [.label "list", a, b]) ++ x =
          text (.array [.label "list", a', b']) ++ y := by
        rw [text_list, text_list]
        exact congrArg ('[' :: ·) (List.cons.inj same).2
      rcases settled _ x y well' apart apart' lists with longer | longer
      · exact longer.eq_of_list
      · obtain ⟨equal, rfl⟩ := longer.eq_of_list
        exact ⟨equal.symm, rfl⟩
    · cases same
  · rcases textTail_cases well' with ⟨rfl, right⟩ | ⟨a', b', rfl, right⟩ | right <;>
      rw [right] at same
    · cases same
    · cases same
    · simp only [List.cons_append, List.append_assoc, List.cons.injEq, true_and] at same
      have closed (x : List Char) : Closed (']' :: x) := closed_cons (by decide) (by decide)
      obtain ⟨rfl, rest⟩ := settled.eq well' (closed x) (closed y) same
      exact ⟨rfl, (List.cons.inj rest).2⟩

theorem Settled.operation_eq (left : Settled a) (right : Settled b) (operator : isInfix op)
    (operator' : isInfix op') (well : WellLabelled (.array [.label op, a, b]))
    (well' : WellLabelled (.array [.label op', a', b']))
    (same : text (.array [.label op, a, b]) ++ x = text (.array [.label op', a', b']) ++ y) :
    Term.array [.label op, a, b] = .array [.label op', a', b'] ∧ x = y := by
  simp only [text_operation operator, text_operation operator', List.cons_append,
    List.append_assoc, List.cons.injEq, true_and, List.nil_append] at same
  have named := well.items (.label op) (by simp)
  have named' := well'.items (.label op') (by simp)
  obtain ⟨rfl, rest⟩ := left.eq (well'.items a' (by simp)) (closed_cons (by decide) (by decide))
    (closed_cons (by decide) (by decide)) same
  obtain ⟨equal, after⟩ := token_append_inj (fun _ => named.isTokenChar_of_mem)
    (fun _ => named'.isTokenChar_of_mem) (apart_cons (by decide)) (apart_cons (by decide))
    (List.cons.inj rest).2
  obtain rfl := String.toList_injective equal
  obtain ⟨rfl, last⟩ := right.eq (well'.items b' (by simp)) (closed_cons (by decide) (by decide))
    (closed_cons (by decide) (by decide)) (List.cons.inj after).2
  exact ⟨rfl, (List.cons.inj last).2⟩

theorem Settled.list_eq (left : Settled a) (right : Settled b)
    (well : WellLabelled (.array [.label "list", a, b]))
    (well' : WellLabelled (.array [.label "list", a', b'])) (apart : Apart x) (apart' : Apart y)
    (same : text (.array [.label "list", a, b]) ++ x = text (.array [.label "list", a', b']) ++ y) :
    Term.array [.label "list", a, b] = .array [.label "list", a', b'] ∧ x = y := by
  simp only [text_list, List.cons_append, List.append_assoc, List.cons.injEq, true_and] at same
  have wells := well.items b (by simp)
  have wells' := well'.items b' (by simp)
  obtain ⟨rfl, rest⟩ := left.eq (well'.items a' (by simp)) (closed_textTail wells)
    (closed_textTail wells') same
  obtain ⟨rfl, rfl⟩ := right.textTail_eq wells wells' apart apart' rest
  exact ⟨rfl, rfl⟩

/-- Two terms of one kind are taken apart in the order in which they are written. -/
theorem Primitive.eq {k : Kind} (primitive : Primitive k t) (primitive' : Primitive k u)
    (well : WellLabelled t) (well' : WellLabelled u)
    (items : ∀ ts, t = .array ts → ∀ s ∈ ts, Settled s) (apart : Apart x) (apart' : Apart y)
    (same : text t ++ x = text u ++ y) : t = u ∧ x = y := by
  cases k with
  | token =>
    obtain ⟨equal, rest⟩ := token_append_inj (fun _ => primitive.isTokenChar_of_mem well)
      (fun _ => primitive'.isTokenChar_of_mem well') apart apart' same
    exact ⟨primitive.text_inj primitive' well well' equal, rest⟩
  | empty =>
    cases primitive
    cases primitive'
    exact ⟨rfl, List.append_cancel_left same⟩
  | operation =>
    cases primitive with
    | operation a b operator =>
      cases primitive' with
      | operation a' b' operator' =>
        exact (items _ rfl a (by simp)).operation_eq (items _ rfl b (by simp)) operator operator'
          well well' same
  | list =>
    cases primitive with
    | list a b =>
      cases primitive' with
      | list a' b' =>
        exact (items _ rfl a (by simp)).list_eq (items _ rfl b (by simp)) well well' apart apart'
          same

theorem Primitive.settled {k : Kind} (primitive : Primitive k t) (well : WellLabelled t)
    (items : ∀ ts, t = .array ts → ∀ s ∈ ts, Settled s) : Settled t := by
  intro u x y well' apart apart' same
  refine .inl ?_
  have met {k' : Kind} {u : Term} {y : List Char} (primitive' : Primitive k' u)
      (well' : WellLabelled u) (apart' : Apart y) (same : text t ++ x = text u ++ y) :
      Extends t u x y := by
    obtain rfl : k = k' := by
      rw [← primitive.kindOf_text well, same, primitive'.kindOf_text well']
    obtain ⟨rfl, rfl⟩ := primitive.eq primitive' well well' items apart apart' same
    exact .refl t x
  induction well' generalizing y with
  | @label s named => exact met (.label s) (.label named) apart' same
  | int n => exact met (.int n) (.int n) apart' same
  | @array us wells ih =>
    cases form us with
    | empty => exact met .empty (.array wells) apart' same
    | operation a b operator => exact met (.operation a b operator) (.array wells) apart' same
    | list a b => exact met (.list a b) (.array wells) apart' same
    | call calls =>
      rw [text_call calls] at same
      simp only [List.cons_append, List.append_assoc, List.nil_append] at same
      exact (ih _ (List.mem_cons_self ..) _ (apart_cons (by decide)) same).snoc

theorem Settled.call (calls : Calls f args) (settled : Settled f)
    (items : ∀ t ∈ args, Settled t) (wells : ∀ t ∈ args, WellLabelled t) :
    Settled (.array (f :: args)) := by
  intro u x y well apart apart' same
  rw [text_call calls] at same
  simp only [List.cons_append, List.append_assoc, List.nil_append] at same
  rcases settled u _ y well (apart_cons (by decide)) apart' same with
    ⟨css, rfl, rest⟩ | longer
  · cases css with
    | nil =>
      obtain rfl : '(' :: ((textItems args).tail ++ ')' :: x) = y := rest
      exact .inr (Extends.refl _ _).snoc
    | cons ds css =>
      obtain ⟨-, wells'⟩ := List.forall_mem_cons.mp (WellLabelled.of_applied css well).items
      simp only [textCalls, List.flatMap_cons, List.cons_append, List.append_assoc,
        List.nil_append, List.cons.injEq, true_and] at rest
      obtain ⟨rfl, rfl⟩ := tail_textItems_append_inj items wells wells' rest
      exact .inl ⟨css, rfl, rfl⟩
  · exact .inr longer.snoc

/-- A term with named labels can be told from what is written. -/
theorem WellLabelled.settled (well : WellLabelled t) : Settled t := by
  induction well with
  | @label s named => exact (Primitive.label s).settled (.label named) nofun
  | int n => exact (Primitive.int n).settled (.int n) nofun
  | @array ts wells ih =>
    have items : ∀ us, Term.array ts = .array us → ∀ s ∈ us, Settled s := by
      rintro us ⟨⟩
      exact ih
    cases form ts with
    | empty => exact Primitive.empty.settled (.array wells) items
    | operation a b operator =>
      exact (Primitive.operation a b operator).settled (.array wells) items
    | list a b => exact (Primitive.list a b).settled (.array wells) items
    | call calls =>
      obtain ⟨functor, args⟩ := List.forall_mem_cons.mp ih
      exact .call calls functor args (List.forall_mem_cons.mp wells).2

/-- Terms whose labels are words and operators, and which are nested no deeper than the
printer goes, are equal if they print alike. -/
theorem print_inj (well : WellLabelled t) (well' : WellLabelled u)
    (within : nesting t ≤ maxPrintDepth) (within' : nesting u ≤ maxPrintDepth) :
    t.print = u.print ↔ t = u := by
  refine ⟨fun same => ?_, fun same => by rw [same]⟩
  have closed : Closed [] := ⟨nofun, nofun⟩
  have texts : text t = text u := by
    rw [← well.toList_printAt 0 (by omega), ← well'.toList_printAt 0 (by omega)]
    exact congrArg String.toList same
  exact (well.settled.eq well' closed closed (congrArg (· ++ []) texts)).1

/-- What prints as `(a - -1)` does not print as `(a - -(1))`. -/
theorem print_inj_minus : ∃ t u : Term, WellLabelled t ∧ WellLabelled u ∧
    nesting t ≤ maxPrintDepth ∧ nesting u ≤ maxPrintDepth ∧ t ≠ u ∧ t.print ≠ u.print := by
  have difference {b : Term} (right : WellLabelled b) :
      WellLabelled (.array [.label "-", .label "a", b]) := by
    refine .array fun t member => ?_
    simp only [List.mem_cons, List.not_mem_nil, or_false] at member
    rcases member with rfl | rfl | rfl
    · exact .label (by decide)
    · exact .label (by decide)
    · exact right
  have negated : WellLabelled (.array [.label "-", .int 1]) := by
    refine .array fun t member => ?_
    simp only [List.mem_cons, List.not_mem_nil, or_false] at member
    rcases member with rfl | rfl
    · exact .label (by decide)
    · exact .int 1
  have same := print_inj (difference (.int (-1))) (difference negated) (by decide) (by decide)
  exact ⟨.array [.label "-", .label "a", .int (-1)],
    .array [.label "-", .label "a", .array [.label "-", .int 1]], difference (.int (-1)),
    difference negated, by decide, by decide, by decide, same.not.mpr (by decide)⟩

end HornMachine.Term
