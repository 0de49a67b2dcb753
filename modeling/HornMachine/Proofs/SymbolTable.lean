import HornMachine.Proofs.CellCode
import HornMachine.Symbols
import Mathlib.Algebra.Group.Nat.Defs
import Mathlib.Data.List.Nodup

/-!
# The table of symbols

A table holds every name once. As long as it has no more names than there are
numbers, a number resolves to a name exactly when the name looks up to that number.
Interning only adds names at the end: what was known keeps its number.
-/
namespace HornMachine.Symbols

/-- No name is in the table twice. -/
def Distinct (s : Symbols) : Prop := s.names.toList.Nodup

/-- `t` has the names of `s` under the same numbers, and perhaps more. -/
def Grows (s t : Symbols) : Prop := s.names.toList <+: t.names.toList

/-- Every name has one number, and every number one name. -/
structure Sound (s : Symbols) : Prop where
  distinct : s.Distinct
  room : s.count ≤ limit

variable {s t u : Symbols} {name : String} {id : Nat}

theorem Grows.refl (s : Symbols) : s.Grows s := List.prefix_refl _

theorem Grows.trans (first : s.Grows t) (second : t.Grows u) : s.Grows u :=
  List.IsPrefix.trans first second

theorem checkCount_eq_ok {r : Unit} : s.checkCount = .ok r ↔ s.count ≤ limit := by
  unfold checkCount
  split <;> simp [*]

theorem resolve_eq_some :
    s.resolve id = some name ↔ id < limit ∧ s.names.toList[id]? = some name := by
  unfold resolve
  split <;> simp [*]

theorem lookup_eq (s : Symbols) (name : String) :
    s.lookup name = (s.names.toList.idxOf? name).map (· % limit) := by
  rw [lookup, ← List.idxOf?_toArray, Array.toArray_toList]

theorem resolve_of_lookup (room : s.count ≤ limit) (found : s.lookup name = some id) :
    s.resolve id = some name := by
  rw [lookup_eq, Option.map_eq_some_iff] at found
  obtain ⟨i, first, rfl⟩ := found
  obtain ⟨inside, same, -⟩ := List.idxOf?_eq_some_iff.mp first
  have small : i < limit := Nat.lt_of_lt_of_le inside room
  rw [Nat.mod_eq_of_lt small, resolve_eq_some, List.getElem?_eq_getElem inside, same]
  exact ⟨small, rfl⟩

theorem exists_lookup (known : s.resolve id = some name) : ∃ id, s.lookup name = some id := by
  cases found : s.lookup name with
  | some id => exact ⟨id, rfl⟩
  | none =>
    rw [lookup, Option.map_eq_none_iff, Array.idxOf?_eq_none_iff] at found
    exact absurd (Array.mem_toList_iff.mp (List.mem_of_getElem? (resolve_eq_some.mp known).2)) found

theorem resolve_inj (distinct : s.Distinct) {i j : Nat} (first : s.resolve i = some name)
    (second : s.resolve j = some name) : i = j := by
  obtain ⟨inside, same⟩ := List.getElem?_eq_some_iff.mp (resolve_eq_some.mp first).2
  obtain ⟨inside', same'⟩ := List.getElem?_eq_some_iff.mp (resolve_eq_some.mp second).2
  exact (List.Nodup.getElem_inj_iff distinct).mp (same.trans same'.symm)

theorem Sound.lookup_eq_some (sound : s.Sound) :
    s.lookup name = some id ↔ s.resolve id = some name := by
  refine ⟨resolve_of_lookup sound.room, fun known => ?_⟩
  obtain ⟨id', found⟩ := exists_lookup known
  rw [found, resolve_inj sound.distinct (resolve_of_lookup sound.room found) known]

theorem Grows.lookup (grows : s.Grows t) (found : s.lookup name = some id) :
    t.lookup name = some id := by
  obtain ⟨more, list⟩ := grows
  rw [lookup_eq, Option.map_eq_some_iff] at found ⊢
  obtain ⟨i, first, rfl⟩ := found
  refine ⟨i, ?_, rfl⟩
  rw [List.idxOf?] at first ⊢
  rw [← list, List.findIdx?_append, first]
  rfl

theorem lt_count_of_lookup (found : s.lookup name = some id) : id < s.count := by
  rw [lookup_eq, Option.map_eq_some_iff] at found
  obtain ⟨i, first, rfl⟩ := found
  obtain ⟨inside, -, -⟩ := List.idxOf?_eq_some_iff.mp first
  exact Nat.lt_of_le_of_lt (Nat.mod_le i limit) inside

theorem Sound.exists_resolve (sound : s.Sound) (known : id < s.count) :
    ∃ name, s.resolve id = some name :=
  ⟨_, resolve_eq_some.mpr ⟨Nat.lt_of_lt_of_le known sound.room, List.getElem?_eq_getElem known⟩⟩

theorem id_lt (known : s.resolve id = some name) : id < 2 ^ 60 := by
  have small := (resolve_eq_some.mp known).1
  rw [limit] at small
  omega

theorem nameOf_unresolved {payload : Int}
    (unresolved : ∀ id : Nat, payload = id → s.resolve id = none) :
    s.nameOf payload = "BADSYMREF=" ++ payload.repr := by
  cases payload with
  | ofNat id => simp [nameOf, unresolved id rfl]
  | negSucc n => rfl

theorem nameOf_constant (known : s.resolve id = some name) :
    s.nameOf (Cell.constant id).payload = name := by
  have small := id_lt known
  rw [Cell.constant, Cell.payload_make (by omega) (by omega)]
  exact congrArg (Option.getD · _) known

theorem grows_intern (s : Symbols) (name : String) : s.Grows (s.intern name).2 := by
  unfold intern
  cases s.lookup name with
  | some id => exact .refl s
  | none => exact ⟨[name], by simp⟩

theorem lookup_intern (s : Symbols) (name : String) :
    (s.intern name).2.lookup name = some (s.intern name).1 := by
  unfold intern
  cases known : s.lookup name with
  | some id => exact known
  | none =>
    rw [lookup_eq, Option.map_eq_none_iff, List.idxOf?] at known
    rw [lookup_eq, List.idxOf?, Array.toList_push, List.findIdx?_append, known]
    simp

theorem Distinct.intern (distinct : s.Distinct) (name : String) : (s.intern name).2.Distinct := by
  unfold Symbols.intern
  cases known : s.lookup name with
  | some id => exact distinct
  | none =>
    have new : name ∉ s.names.toList := by
      rw [lookup, Option.map_eq_none_iff, Array.idxOf?_eq_none_iff] at known
      simpa using known
    simp only [Distinct, Array.toList_push, List.nodup_append, List.nodup_singleton, true_and]
    refine ⟨distinct, ?_⟩
    intro a old b single
    rw [List.mem_singleton.mp single]
    rintro rfl
    exact new old

/-- The table once the names are interned in turn. -/
def internAll (s : Symbols) (names : List String) : Symbols :=
  names.foldl (fun s name => (s.intern name).2) s

theorem internAll_append (s : Symbols) (names names' : List String) :
    s.internAll (names ++ names') = (s.internAll names).internAll names' :=
  List.foldl_append

theorem grows_internAll (s : Symbols) (names : List String) : s.Grows (s.internAll names) := by
  induction names generalizing s with
  | nil => exact .refl s
  | cons name names ih => exact (s.grows_intern name).trans (ih _)

theorem Distinct.internAll (distinct : s.Distinct) (names : List String) :
    (s.internAll names).Distinct := by
  induction names generalizing s with
  | nil => exact distinct
  | cons name names ih => exact ih (distinct.intern name)

theorem distinct_empty : Distinct {} := List.nodup_nil

end HornMachine.Symbols
