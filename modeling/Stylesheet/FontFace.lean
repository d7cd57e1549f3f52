import Stylesheet.Declaration

/-!
# Font faces

A font face is a list of descriptors, looked up by property name; the first of a name counts.
-/

namespace Stylesheet

/-- Where the glyphs of a font come from: an address, or a font of the system. -/
inductive FontSource where
  | url (address : String)
  | localFont (family : String)
deriving DecidableEq, Repr, Inhabited

namespace FontSource

/-- An entry of a source list: an address or a `local` function at its head, hints aside. -/
def ofEntry? (entry : Value) : Option FontSource :=
  match entry.items.head? with
  | some (.url address) => some (.url address)
  | some (.call name arguments) =>
    if sameWord name "local" then
      (arguments.head?.bind Value.asWord?).map FontSource.localFont
    else none
  | _ => none

end FontSource

structure FontFace where
  descriptors : List Declaration
  span : Span := .nowhere
deriving Inhabited

namespace FontFace

/-- The value of a descriptor. -/
def descriptor? (f : FontFace) (name : String) : Option Value :=
  (f.descriptors.find? fun d => d.isOf name).map Declaration.value

def family? (f : FontFace) : Option String := (f.descriptor? "font-family").bind Value.asWord?

/-- The sources in order, entries that are none left out. -/
def sources (f : FontFace) : List FontSource :=
  match f.descriptor? "src" with
  | none => []
  | some v => v.commaItems.filterMap FontSource.ofEntry?

def style (f : FontFace) : String :=
  ((f.descriptor? "font-style").bind Value.asIdent?).getD "normal"

def weight? (f : FontFace) : Option Value := f.descriptor? "font-weight"

/-- A descriptor that is the word `true` or `false`, in any case. -/
def flag? (f : FontFace) (name : String) : Option Bool :=
  match (f.descriptor? name).bind Value.asIdent? with
  | none => none
  | some word =>
    if sameWord word "true" then some true else if sameWord word "false" then some false else none

def embedAsCff (f : FontFace) : Bool := (f.flag? "embed-as-cff").getD true

def advancedAntiAliasing (f : FontFace) : Bool := (f.flag? "advanced-anti-aliasing").getD true

def toText (f : FontFace) : String := Declaration.blockText "@font-face" f.descriptors

/-- Equality, where numbers are equal as numbers. -/
def equal (a b : FontFace) : Bool :=
  a.span == b.span && a.descriptors.length == b.descriptors.length &&
    (a.descriptors.zip b.descriptors).all fun (d, e) => d.equal e

end FontFace

end Stylesheet
