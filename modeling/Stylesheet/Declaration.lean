import Stylesheet.Value
import Stylesheet.Text.Position

/-!
# Declarations

A property with its value. Property names that differ only in dashes and in the case of ASCII letters
are the same property: `fontFamily` is `font-family`.
-/

namespace Stylesheet

/-- A property name without what does not tell it from another. -/
def foldProperty (name : String) : List Char :=
  (name.toList.filter (· != '-')).map Char.toLower

/-- Whether two names are of one property. -/
def sameProperty (a b : String) : Bool := foldProperty a == foldProperty b

structure Declaration where
  name : String
  value : Value
  important : Bool
  span : Span
deriving Inhabited

namespace Declaration

def isOf (d : Declaration) (name : String) : Bool := sameProperty d.name name

def toText (d : Declaration) : String :=
  d.name ++ ": " ++ d.value.toText ++ if d.important then " !important" else ""

/-- A block of declarations behind what it belongs to. -/
def blockText (head : String) (ds : List Declaration) : String :=
  head ++ " \x7b" ++ String.join (ds.map fun d => " " ++ d.toText ++ ";") ++ " \x7d"

/-- Equality, where numbers are equal as numbers. -/
def equal (a b : Declaration) : Bool :=
  a.name == b.name && a.value.equal b.value && a.important == b.important && a.span == b.span

end Declaration

end Stylesheet
