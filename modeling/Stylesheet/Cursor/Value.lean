import Stylesheet.Cursor.Basic
import Stylesheet.Grammar.Value

/-!
# Values read through a cursor

A value is read term by term: behind each term comes what separates it from the next one, or the value
ends. A call has a value in its turn, so terms and values are as deep as the input is nested.
-/

namespace Stylesheet.Cursor

open Grammar

/-- What stands between two terms: a separator that is written out, the first whitespace token, or
    nothing. If no term is to come, the value ends. -/
def separator : Run (Option (List Tree)) := do
  let whitespace ← skipBlanks
  let c ← get
  if isSeparator c.kind then
    let separator ← token
    blanks
    return some [separator]
  else if startsTerm c.kind then return some (whitespace.map Tree.leaf).toList
  else return none

section

variable (nested : Bool → Attempt Tree)

/-- A call, whose arguments are a value in turn. -/
def functionCall : Attempt Tree := do
  let function ← token
  blanks
  if isClosingParen (← get).kind then
    let close ← token
    return .node .functionCall function.first [function, close]
  else
    let arguments ← nested true
    blanks
    let close ← expect isClosingParen (·.unexpected "')'")
    return .node .functionCall function.first [function, arguments, close]

/-- A call or a literal. -/
def plainTerm : Attempt Tree := do
  let c ← get
  match c.kind with
  | .function _ => functionCall nested
  | kind =>
    if startsTerm kind then
      let literal ← token
      return .node .term literal.first [literal]
    else throw (c.unexpected "value")

/-- `name = term`. -/
def namedArgument : Attempt Tree := do
  let name ← token
  blanks
  let equals ← token
  blanks
  let value ← plainTerm nested
  return .node .namedArgument name.first [name, equals, value]

/-- One term. A name with an equals sign behind it names an argument, where that is allowed. -/
def term (named : Bool) : Attempt Tree := do
  let c ← get
  if named && c.kind.isIdent && c.nextKind? == some (.comparison .equals) then namedArgument nested
  else plainTerm nested

/-- A round of a value: a term, and what separates it from the next one. -/
def valueRound (named : Bool) (children : List Tree) : Attempt (Step (List Tree) (List Tree)) := do
  let term ← term nested named
  match ← separator with
  | some between => return .again (children ++ term :: between)
  | none => return .done (children ++ [term])

/-- A value, if the values in its calls are read by `nested`. -/
def valueOf (named : Bool) : Attempt Tree := do
  let c ← get
  let children ← attempt (valueRound nested named) []
  return .node .value c.pos children

end

/-- A value. One in a call begins behind the place where this one began, or else reading is stuck. -/
def valueFrom (named : Bool) (c : Cursor) : Option (Except SyntaxError Tree × Cursor) :=
  (valueOf (fun named => .mk fun d => if d.remaining < c.remaining then valueFrom named d else none)
    named).run c
termination_by c.remaining

def value (named : Bool) : Attempt Tree := .mk (valueFrom named)

end Stylesheet.Cursor
