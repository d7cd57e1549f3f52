/-!
# Options

What a caller may choose for a parse.
-/

namespace Stylesheet

structure Options where
  /-- The deepest nesting of blocks and functions that is read. -/
  maxNestingDepth : Nat := 64
  /-- Whether a type selector without a prefix belongs to the default namespace. -/
  qualifiedTypeSelectors : Bool := true
deriving DecidableEq, Repr, Inhabited

namespace Options

def standard : Options := {}

/-- For sources that are not trusted: little nesting. -/
def strict : Options := { maxNestingDepth := 16 }

/-- For type selectors that stay without a namespace. -/
def unqualified : Options := { qualifiedTypeSelectors := false }

end Options

end Stylesheet
