import Stylesheet.Text.Position

/-!
# Namespaces

A namespace rule binds a prefix, or no prefix for the default namespace, to an address. Of several
bindings of one key the first counts.
-/

namespace Stylesheet

structure Namespace where
  nsPrefix : Option String
  address : String
  span : Span
deriving DecidableEq, Repr, Inhabited

namespace Namespace

/-- What a namespace is looked up by: its prefix, or the empty string. -/
def key (n : Namespace) : String := n.nsPrefix.getD ""

def isDefault (n : Namespace) : Bool := n.nsPrefix.isNone

def toText (n : Namespace) : String :=
  match n.nsPrefix with
  | some p => "@namespace " ++ p ++ " \"" ++ n.address ++ "\";"
  | none => "@namespace \"" ++ n.address ++ "\";"

/-- The first namespace with a key. -/
def find? (all : List Namespace) (key : String) : Option Namespace := all.find? fun n => n.key == key

/-- A table of keys and places with one more entry, unless the key has one. -/
def enter (table : List (String × Nat)) (n : Namespace) (place : Nat) : List (String × Nat) :=
  if (table.lookup n.key).isSome then table else (n.key, place) :: table

/-- The table of all keys, each with the place where it is bound first. -/
def places (all : List Namespace) : List (String × Nat) :=
  all.zipIdx.foldl (fun table (n, place) => enter table n place) []

end Namespace

end Stylesheet
