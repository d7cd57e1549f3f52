import Stylesheet.Problem.Template

/-!
# Kinds of problems

Everything that can be found wrong with a stylesheet. A kind has a stable code, which also tells the
stage that finds it, a name, a message template and a severity.
-/

namespace Stylesheet

inductive Severity where
  | warning
  | error
deriving DecidableEq, Repr, Inhabited

namespace Severity

def toText : Severity → String
  | .warning => "warning"
  | .error => "error"

/-- An error is graver than a warning. -/
def rank : Severity → Nat
  | .warning => 0
  | .error => 1

end Severity

/-- The stage that finds a problem: in the characters, in the grammar, in the meaning, or none, when
    the work itself stopped. -/
inductive ProblemClass where
  | lexical
  | syntactic
  | semantic
  | internal
deriving DecidableEq, Repr, Inhabited

namespace ProblemClass

def toText : ProblemClass → String
  | .lexical => "lexical"
  | .syntactic => "syntactic"
  | .semantic => "semantic"
  | .internal => "internal"

end ProblemClass

inductive ProblemKind where
  | unexpectedCharacter
  | unterminatedString
  | unterminatedComment
  | badEscape
  | badUrl
  | unexpectedToken
  | missingSemicolon
  | missingCloseBrace
  | malformedSelector
  | missingPropertyValue
  | malformedMediaQuery
  | duplicateNamespace
  | duplicateDescriptor
  | invalidAtRule
  | invalidColor
  | unknownNamespace
  | nestingTooDeep
  | unexpectedException
deriving DecidableEq, Repr, Inhabited

namespace ProblemKind

/-- All kinds, by code. -/
def all : List ProblemKind :=
  [.unexpectedCharacter, .unterminatedString, .unterminatedComment, .badEscape, .badUrl,
    .unexpectedToken, .missingSemicolon, .missingCloseBrace, .malformedSelector,
    .missingPropertyValue, .malformedMediaQuery, .duplicateNamespace, .duplicateDescriptor,
    .invalidAtRule, .invalidColor, .unknownNamespace, .nestingTooDeep, .unexpectedException]

def code : ProblemKind → Nat
  | .unexpectedCharacter => 1001
  | .unterminatedString => 1002
  | .unterminatedComment => 1003
  | .badEscape => 1004
  | .badUrl => 1005
  | .unexpectedToken => 1010
  | .missingSemicolon => 1011
  | .missingCloseBrace => 1012
  | .malformedSelector => 1013
  | .missingPropertyValue => 1014
  | .malformedMediaQuery => 1015
  | .duplicateNamespace => 1440
  | .duplicateDescriptor => 1441
  | .invalidAtRule => 1442
  | .invalidColor => 1443
  | .unknownNamespace => 1446
  | .nestingTooDeep => 1490
  | .unexpectedException => 1499

def name : ProblemKind → String
  | .unexpectedCharacter => "unexpected-character"
  | .unterminatedString => "unterminated-string"
  | .unterminatedComment => "unterminated-comment"
  | .badEscape => "bad-escape"
  | .badUrl => "bad-url"
  | .unexpectedToken => "unexpected-token"
  | .missingSemicolon => "missing-semicolon"
  | .missingCloseBrace => "missing-close-brace"
  | .malformedSelector => "malformed-selector"
  | .missingPropertyValue => "missing-property-value"
  | .malformedMediaQuery => "malformed-media-query"
  | .duplicateNamespace => "duplicate-namespace"
  | .duplicateDescriptor => "duplicate-descriptor"
  | .invalidAtRule => "invalid-at-rule"
  | .invalidColor => "invalid-color"
  | .unknownNamespace => "unknown-namespace"
  | .nestingTooDeep => "nesting-too-deep"
  | .unexpectedException => "unexpected-exception"

def template : ProblemKind → Template
  | .unexpectedCharacter => [.text "Unexpected character '", .place "character", .text "'."]
  | .unterminatedString => [.text "String is not terminated."]
  | .unterminatedComment => [.text "Comment is not terminated."]
  | .badEscape => [.text "Invalid escape sequence."]
  | .badUrl => [.text "Malformed url '", .place "url", .text "'."]
  | .unexpectedToken =>
    [.text "Expected ", .place "expected", .text " but found ", .place "found", .text "."]
  | .missingSemicolon => [.text "Missing ';' at end of statement."]
  | .missingCloseBrace => [.text "Missing '\x7d' before end of input."]
  | .malformedSelector => [.text "Malformed selector: ", .place "reason", .text "."]
  | .missingPropertyValue => [.text "Property '", .place "property", .text "' has no value."]
  | .malformedMediaQuery => [.text "Malformed media query: ", .place "reason", .text "."]
  | .duplicateNamespace =>
    [.text "Namespace prefix '", .place "prefix", .text "' is already declared."]
  | .duplicateDescriptor =>
    [.text "Descriptor '", .place "property",
      .text "' is declared more than once; the last value is used."]
  | .invalidAtRule => [.text "At-rule '@", .place "name", .text "' is not allowed here."]
  | .invalidColor => [.text "'", .place "color", .text "' is not a valid color."]
  | .unknownNamespace => [.text "Unknown namespace prefix '", .place "prefix", .text "'."]
  | .nestingTooDeep =>
    [.text "Blocks are nested deeper than ", .place "limit", .text " levels."]
  | .unexpectedException => [.text "Unexpected failure: ", .place "message", .text "."]

def severity : ProblemKind → Severity
  | .duplicateDescriptor => .warning
  | _ => .error

/-- The class is read off the code: 1001 to 1009, 1010 to 1099, 1400 to 1489, and all else. -/
def problemClass (k : ProblemKind) : ProblemClass :=
  if 1001 ≤ k.code ∧ k.code ≤ 1009 then .lexical
  else if 1010 ≤ k.code ∧ k.code ≤ 1099 then .syntactic
  else if 1400 ≤ k.code ∧ k.code ≤ 1489 then .semantic
  else .internal

end ProblemKind

end Stylesheet
