import Stylesheet.Problem
import Stylesheet.Token

/-!
# Faults

Why a production does not accept what it is given. A fault names its cause and the place of the
offending token, and is reported once, by whoever skips that token.
-/

namespace Stylesheet

/-- What is wrong with a selector; `found` describes the token that does not fit. -/
inductive SelectorFault where
  | unexpected (found : String)
  | noSelector (found : String)
  | noElementName
  | noId (text : String)
  | noClassName
  | noAttributeName
  | noAttributeValue
  | noClosingBracket
  | openArgument
  | noPseudoName
deriving DecidableEq

namespace SelectorFault

def message : SelectorFault → String
  | .unexpected found => "unexpected " ++ found
  | .noSelector found => "expected selector but found " ++ found
  | .noElementName => "expected element name after '|'"
  | .noId text => "'" ++ text ++ "' is not a valid id"
  | .noClassName => "expected class name after '.'"
  | .noAttributeName => "expected attribute name"
  | .noAttributeValue => "expected attribute value"
  | .noClosingBracket => "expected ']'"
  | .openArgument => "unterminated pseudo-class argument"
  | .noPseudoName => "expected pseudo-class name after ':'"

end SelectorFault

/-- What is wrong with a media query. -/
inductive MediaFault where
  | unexpected (found : String)
  | noFeatureName (found : String)
  | noClosingParen (found : String)
deriving DecidableEq

namespace MediaFault

def message : MediaFault → String
  | .unexpected found => "unexpected " ++ found
  | .noFeatureName found => "expected feature name but found " ++ found
  | .noClosingParen found => "expected ')' but found " ++ found

end MediaFault

namespace Fault

inductive Cause where
  | unexpectedToken (expected found : String)
  | selector (fault : SelectorFault)
  | mediaQuery (fault : MediaFault)
  | noPropertyValue (property : String)
  | missingSemicolon
  | missingCloseBrace
deriving DecidableEq

namespace Cause

def kind : Cause → ProblemKind
  | .unexpectedToken .. => .unexpectedToken
  | .selector _ => .malformedSelector
  | .mediaQuery _ => .malformedMediaQuery
  | .noPropertyValue _ => .missingPropertyValue
  | .missingSemicolon => .missingSemicolon
  | .missingCloseBrace => .missingCloseBrace

def params : Cause → List (String × String)
  | .unexpectedToken expected found => [("expected", expected), ("found", found)]
  | .selector fault => [("reason", fault.message)]
  | .mediaQuery fault => [("reason", fault.message)]
  | .noPropertyValue property => [("property", property)]
  | .missingSemicolon => []
  | .missingCloseBrace => []

end Cause

end Fault

/-- A cause and its place; without one, the place is the end of the tokens. -/
structure Fault where
  cause : Fault.Cause
  place : Option Span
deriving DecidableEq

namespace Fault

/-- The problem to report, for tokens that end at `stop`. -/
def problem (source : String) (stop : Span) (f : Fault) : Problem :=
  .ofParams f.cause.kind source (f.place.getD stop) f.cause.params

end Fault

end Stylesheet
