import Stylesheet.Problem
import Stylesheet.Tree

/-!
# Reading trees

A tree is read against the tokens that it was made from. What is read comes with the problems found
in it, in the order in which they are found (`Noted`).
-/

namespace Stylesheet

/-- A result and the problems found on the way. -/
structure Noted (α : Type) where
  result : α
  problems : List Problem

namespace Noted

variable {α β : Type}

instance : Monad Noted where
  pure a := ⟨a, []⟩
  bind x f := ⟨(f x.result).result, x.problems ++ (f x.result).problems⟩

/-- Reports a problem. -/
def report (p : Problem) : Noted Unit := ⟨(), [p]⟩

/-- Reads one after the other. -/
def collect (f : α → Noted β) : List α → Noted (List β)
  | [] => pure []
  | a :: rest => do
    let b ← f a
    let bs ← collect f rest
    return b :: bs

/-- Reads one after the other, and keeps what is there. -/
def collect? (f : α → Noted (Option β)) (l : List α) : Noted (List β) := do
  let found ← collect f l
  return found.filterMap id

@[simp] theorem pure_result (a : α) : (pure a : Noted α).result = a := rfl

@[simp] theorem pure_problems (a : α) : (pure a : Noted α).problems = [] := rfl

@[simp] theorem bind_result (x : Noted α) (f : α → Noted β) :
    (x >>= f).result = (f x.result).result := rfl

@[simp] theorem bind_problems (x : Noted α) (f : α → Noted β) :
    (x >>= f).problems = x.problems ++ (f x.result).problems := rfl

theorem collect_result (f : α → Noted β) (l : List α) :
    (collect f l).result = l.map fun a => (f a).result := by
  induction l with
  | nil => rfl
  | cons a l ih => rw [collect, bind_result, bind_result, pure_result, ih, List.map_cons]

theorem collect?_result (f : α → Noted (Option β)) (l : List α) :
    (collect? f l).result = l.filterMap fun a => (f a).result := by
  rw [collect?, bind_result, pure_result, collect_result, List.filterMap_map]
  rfl

end Noted

/-- What trees are read against: the tokens, and the name of the source for problems. -/
structure Reading where
  source : String
  tokens : List Token

namespace Reading

def kind? (r : Reading) (index : Nat) : Option TokenKind := r.tokens[index]?.map Token.kind

/-- The name of an identifier token. -/
def ident? (r : Reading) (index : Nat) : Option String :=
  match r.kind? index with
  | some (.ident name) => some name
  | _ => none

def text (r : Reading) (index : Nat) : String := (r.tokens[index]?.map Token.text).getD ""

def spanOf (r : Reading) (t : Tree) : Span := t.span r.tokens

def problem (r : Reading) (kind : ProblemKind) (span : Span) (params : List (String × String)) :
    Problem := .ofParams kind r.source span params

end Reading

end Stylesheet
