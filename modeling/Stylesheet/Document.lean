import Stylesheet.FontFace
import Stylesheet.Namespace
import Stylesheet.Rule

/-!
# Documents

What a stylesheet says: its namespaces, font faces and rules, each in the order of the source.
-/

namespace Stylesheet

structure Document where
  sourceName : String
  span : Span
  namespaces : List Namespace
  fontFaces : List FontFace
  rules : List Rule
deriving Inhabited

namespace Document

/-- The namespace of a prefix; the empty string finds the default one. -/
def namespace? (d : Document) (key : String) : Option Namespace :=
  ((Namespace.places d.namespaces).lookup key).bind fun place => d.namespaces[place]?

def defaultNamespace? (d : Document) : Option Namespace := d.namespace? ""

/-- Namespaces, font faces and rules, one on a line, the three groups parted by newlines. -/
def render (d : Document) : String :=
  String.intercalate "\n" (d.namespaces.map Namespace.toText) ++ "\n" ++
    String.intercalate "\n" (d.fontFaces.map FontFace.toText) ++ "\n" ++
    String.intercalate "\n" (d.rules.map Rule.toText)

/-- Equality in everything, places too, where numbers are equal as numbers. -/
def equal (a b : Document) : Bool :=
  a.sourceName == b.sourceName && a.span == b.span && a.namespaces == b.namespaces &&
    a.fontFaces.length == b.fontFaces.length &&
    ((a.fontFaces.zip b.fontFaces).all fun (f, g) => f.equal g) &&
    a.rules.length == b.rules.length && (a.rules.zip b.rules).all fun (r, s) => r.equal s

end Document

end Stylesheet
