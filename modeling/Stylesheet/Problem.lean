import Stylesheet.Problem.Kind
import Stylesheet.Text.Position

/-!
# Problems

One thing found wrong: its kind, the source and place it was found in, and the values for the places
of its message.
-/

namespace Stylesheet

structure Problem where
  kind : ProblemKind
  source : String
  span : Span
  /-- Values by name, each name once. -/
  params : List (String × String)
deriving DecidableEq, Inhabited

namespace Problem

/-- Gives a value a name; a name that has one already changes it. -/
def setParam (name value : String) : List (String × String) → List (String × String)
  | [] => [(name, value)]
  | (n, v) :: rest => if n = name then (n, value) :: rest else (n, v) :: setParam name value rest

/-- A problem with its values named one after the other. -/
def ofParams (kind : ProblemKind) (source : String) (span : Span)
    (params : List (String × String)) : Problem :=
  ⟨kind, source, span, params.foldl (fun known (name, value) => setParam name value known) []⟩

def param? (p : Problem) (name : String) : Option String := p.params.lookup name

/-- The message of the kind, with the values put in for the markers. -/
def message (p : Problem) : String :=
  String.ofList (Template.substitute p.param? p.kind.template.source.toList)

/-- The problem on one line: source, place, severity, code, message. -/
def toText (p : Problem) : String :=
  p.source ++ ":" ++ p.span.start.toText ++ ": " ++ p.kind.severity.toText ++ "[" ++
    toString p.kind.code ++ "]: " ++ p.message

end Problem

end Stylesheet
