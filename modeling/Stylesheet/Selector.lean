import Stylesheet.Token

/-!
# Selectors

A selector is a row of compounds joined by combinators, the last compound being its subject. A
compound may name an element, with or without a namespace, and puts conditions on it.
-/

namespace Stylesheet

inductive Combinator where
  | descendant
  | child
  | adjacent
  | general
deriving DecidableEq, Repr, Inhabited

namespace Combinator

def toText : Combinator → String
  | .descendant => " "
  | .child => " > "
  | .adjacent => " + "
  | .general => " ~ "

end Combinator

/-- The element that a compound names: any, or one of a type. -/
inductive ElementName where
  | any
  | type (name : String)
deriving DecidableEq, Repr, Inhabited

inductive Condition where
  | hasClass (name : String)
  | hasId (name : String)
  /-- `:name` or `:name(argument)`; with two colons a pseudo-element. -/
  | pseudo (name : String) (argument : Option String) (element : Bool)
  | attribute (name : String) (matcher : Option (Comparison × String))
deriving DecidableEq, Repr, Inhabited

namespace Condition

def toText : Condition → String
  | .hasClass name => "." ++ name
  | .hasId name => "#" ++ name
  | .pseudo name argument element =>
    (if element then "::" else ":") ++ name ++
      match argument with
      | some a => "(" ++ a ++ ")"
      | none => ""
  | .attribute name none => "[" ++ name ++ "]"
  | .attribute name (some (comparison, value)) =>
    "[" ++ name ++ comparison.toText ++ "\"" ++ value ++ "\"]"

def className? : Condition → Option String
  | .hasClass name => some name
  | _ => none

end Condition

/-- One compound. The prefix `*` stands for any namespace and the empty one for none. -/
structure Compound where
  nsPrefix : Option String := none
  /-- The address of the namespace that the element belongs to, where one is known. -/
  nsAddress : Option String := none
  element : Option ElementName := none
  conditions : List Condition := []
deriving DecidableEq, Repr, Inhabited

namespace Compound

/-- The type that a compound names. -/
def typeName? (c : Compound) : Option String :=
  match c.element with
  | some (.type name) => some name
  | _ => none

/-- The classes that a compound asks for, in order. -/
def classes (c : Compound) : List String := c.conditions.filterMap Condition.className?

def toText (c : Compound) : String :=
  (match c.nsPrefix with
    | some p => p ++ "|"
    | none => "") ++
  (match c.element with
    | some .any => "*"
    | some (.type name) => name
    | none => "") ++
  String.join (c.conditions.map Condition.toText)

end Compound

/-- Compounds from left to right, with the combinators between them. -/
structure Selector where
  compounds : List Compound
  combinators : List Combinator
  span : Span
deriving DecidableEq, Repr, Inhabited

namespace Selector

def empty : Selector := ⟨[], [], .nowhere⟩

/-- A single compound. -/
def single (c : Compound) : Selector := ⟨[c], [], .nowhere⟩

/-- Joins a compound at the right. To an empty selector it is joined by nothing. -/
def join (s : Selector) (combinator : Combinator) (c : Compound) : Selector :=
  { s with
    compounds := s.compounds ++ [c]
    combinators := if s.compounds.isEmpty then s.combinators else s.combinators ++ [combinator] }

/-- The compound that stands for the selected element. -/
def subject? (s : Selector) : Option Compound := s.compounds.getLast?

/-- The compounds behind the first, each behind its combinator as long as there are any. -/
def tailText : List Combinator → List Compound → String
  | _, [] => ""
  | [], c :: rest => c.toText ++ tailText [] rest
  | k :: ks, c :: rest => k.toText ++ c.toText ++ tailText ks rest

def toText (s : Selector) : String :=
  match s.compounds with
  | [] => ""
  | c :: rest => c.toText ++ tailText s.combinators rest

end Selector

end Stylesheet
