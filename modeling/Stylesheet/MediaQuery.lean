import Stylesheet.Value

/-!
# Media queries

A query names a medium, conditions on it, or both.
-/

namespace Stylesheet

inductive Qualifier where
  | only
  | not
deriving DecidableEq, Repr, Inhabited

namespace Qualifier

def toText : Qualifier → String
  | .only => "only "
  | .not => "not "

end Qualifier

/-- `(name)` or `(name: value)`. -/
structure MediaFeature where
  name : String
  value : Option Value
deriving Inhabited

namespace MediaFeature

def toText (f : MediaFeature) : String :=
  match f.value with
  | some v => "(" ++ f.name ++ ": " ++ v.toText ++ ")"
  | none => "(" ++ f.name ++ ")"

/-- Equality, where numbers are equal as numbers. -/
def equal (a b : MediaFeature) : Bool :=
  a.name == b.name &&
    match a.value, b.value with
    | some v, some w => v.equal w
    | none, none => true
    | _, _ => false

end MediaFeature

structure MediaQuery where
  qualifier : Option Qualifier := none
  mediaType : Option String := none
  features : List MediaFeature := []
deriving Inhabited

namespace MediaQuery

/-- The first feature of a name, in any case. -/
def feature? (q : MediaQuery) (name : String) : Option MediaFeature :=
  q.features.find? fun f => sameWord f.name name

/-- The parts joined by `and`: the medium, then the features. -/
def toText (q : MediaQuery) : String :=
  (q.qualifier.map Qualifier.toText).getD "" ++
    String.intercalate " and " (q.mediaType.toList ++ q.features.map MediaFeature.toText)

/-- Equality, where numbers are equal as numbers. -/
def equal (a b : MediaQuery) : Bool :=
  a.qualifier == b.qualifier && a.mediaType == b.mediaType &&
    a.features.length == b.features.length &&
    (a.features.zip b.features).all fun (f, g) => f.equal g

end MediaQuery

end Stylesheet
