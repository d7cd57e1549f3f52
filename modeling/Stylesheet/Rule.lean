import Stylesheet.Declaration
import Stylesheet.MediaQuery
import Stylesheet.Selector

/-!
# Style rules

Selectors, the declarations for what they select, and the media queries of the block around the rule,
none for a rule outside such a block.
-/

namespace Stylesheet

structure Rule where
  selectors : List Selector
  declarations : List Declaration
  media : List MediaQuery := []
  span : Span := .nowhere
deriving Inhabited

namespace Rule

/-- The declaration of a property that counts: the last. -/
def declaration? (r : Rule) (name : String) : Option Declaration :=
  r.declarations.reverse.find? fun d => d.isOf name

/-- The rule without the block around it. -/
def styleText (r : Rule) : String :=
  Declaration.blockText (String.intercalate ", " (r.selectors.map Selector.toText)) r.declarations

def toText (r : Rule) : String :=
  if r.media.isEmpty then r.styleText
  else
    "@media " ++ String.intercalate ", " (r.media.map MediaQuery.toText) ++ " \x7b " ++
      r.styleText ++ " \x7d"

/-- Equality, where numbers are equal as numbers. -/
def equal (a b : Rule) : Bool :=
  a.selectors == b.selectors && a.span == b.span &&
    a.declarations.length == b.declarations.length &&
    ((a.declarations.zip b.declarations).all fun (d, e) => d.equal e) &&
    a.media.length == b.media.length && (a.media.zip b.media).all fun (q, p) => q.equal p

end Rule

end Stylesheet
