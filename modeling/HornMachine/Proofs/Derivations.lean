import HornMachine.Clause.Linking
import HornMachine.Proofs.Layouts
import HornMachine.Term

/-!
# What a program says

Read with finite trees for its variables, a sentence says that the tree of its
head holds if the trees of its body goals do, as long as its equations are
solved. The trees that hold are the least set closed under the sentences: the
least Herbrand model of the program.
-/
namespace HornMachine

/-- The tree of a word when `σ` gives those of the variables. -/
def Word.tree (σ : String → Term) : Word → Term
  | .const name => .label name
  | .number n => .int n
  | .var name => σ name
  | .holds name => σ name
  | .lists name => σ name

namespace Element

/-- The structure with the words as its elements. -/
def tree (σ : String → Term) (e : Element) : Term := .array (e.map (Word.tree σ))

/-- If the element is an equation, `σ` solves it. -/
def Solves (σ : String → Term) : Element → Prop
  | .holds name :: words => σ name = tree σ words
  | _ => True

theorem solves_of_not_equation (σ : String → Term) {e : Element} (goal : isEquation e = false) :
    Solves σ e := by
  cases e with
  | nil => trivial
  | cons w ws =>
    cases w with
    | holds name => cases goal
    | _ => trivial

end Element

/-- The trees that hold in a program with these sentences. -/
inductive Derivable (rules : List Sentence) : Term → Prop
  | rule {s : Sentence} {head : Element} {body : List Element} {σ : String → Term} :
      s ∈ rules → s.expandLists = .ok (head :: body) → (∀ e ∈ body, Element.Solves σ e) →
      (∀ e ∈ body, isEquation e = false → Derivable rules (Element.tree σ e)) →
      Derivable rules (Element.tree σ head)

end HornMachine
