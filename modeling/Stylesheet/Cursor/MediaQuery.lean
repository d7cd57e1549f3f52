import Stylesheet.Cursor.Value
import Stylesheet.Grammar.MediaQuery

/-!
# Media queries read through a cursor

A query is read in rounds, one for each word and each feature. What may come next depends on what came
before, which the rounds hand on (`QueryState`). The list of queries ends in front of the brace of the
block, which is not taken.
-/

namespace Stylesheet.Cursor

open Grammar

/-- `(name)` or `(name: value)`. -/
def mediaFeature : Attempt Tree := do
  let paren ← token
  blanks
  let name ← expect TokenKind.isIdent
    fun c => c.malformedMedia ("expected feature name but found " ++ c.found)
  blanks
  let value ← featureValue
  let close ← expect isClosingParen fun c => c.malformedMedia ("expected ')' but found " ++ c.found)
  return .node .mediaFeature paren.first (paren :: name :: (value ++ [close]))
where
  featureValue : Attempt (List Tree) := do
    match ← optional (· == .colon) with
    | none => return []
    | some colon =>
      blanks
      let value ← value false
      blanks
      return [colon, value]

/-- What there is of a query: its trees, whether a qualifier, a medium and a feature are among them, and
    whether a feature has to come, as behind `and`. -/
structure QueryState where
  children : List Tree := []
  qualifier : Bool := false
  medium : Bool := false
  feature : Bool := false
  needFeature : Bool := false

namespace QueryState

def atStart (q : QueryState) : Bool := !q.qualifier && !q.medium && !q.feature

/-- There is a medium or a feature. -/
def isBegun (q : QueryState) : Bool := q.medium || q.feature

end QueryState

/-- A round of a query: `and`, a qualifier, a medium, a feature, or the end of the query. -/
def queryRound (q : QueryState) : Attempt (Step QueryState (List Tree)) := do
  blanks
  let c ← get
  if isAnd c.kind && q.isBegun && !q.needFeature then
    let and ← token
    return .again { q with children := q.children ++ [and], needFeature := true }
  else if c.kind.isIdent && !isAnd c.kind && !q.isBegun then
    let beforeWord := (c.nextKind?.map TokenKind.isIdent).getD false
    let word ← token
    let children := q.children ++ [word]
    if isQualifier c.kind && !q.qualifier && beforeWord then
      return .again { q with children, qualifier := true }
    else return .again { q with children, medium := true }
  else if c.kind == .opening .paren && (q.needFeature || q.atStart) then
    let feature ← mediaFeature
    return .again
      { q with children := q.children ++ [feature], feature := true, needFeature := false }
  else if (c.kind == .comma || c.kind == .opening .brace) && !q.needFeature && q.isBegun then
    return .done q.children
  else throw (c.malformedMedia ("unexpected " ++ c.found))

/-- One query. -/
def mediaQuery : Attempt Tree := do
  let start ← get
  let children ← attempt queryRound {}
  return .node .mediaQuery start.pos children

/-- A round of the queries: one of them, and a comma or the end of the list. -/
def queryListRound (children : List Tree) : Attempt (Step (List Tree) (List Tree)) := do
  blanks
  let query ← mediaQuery
  match ← optional (· == .comma) with
  | some comma => return .again (children ++ [query, comma])
  | none =>
    refuse (fun c => !(c.kind == .opening .brace))
      fun c => c.malformedMedia ("expected ',' or '\x7b' but found " ++ c.found)
    return .done (children ++ [query])

/-- The queries in front of a block; there may be none. -/
def mediaQueryList : Attempt Tree := do
  let start ← get
  if start.kind == .opening .brace then return .node .mediaQueryList start.pos []
  else
    let children ← attempt queryListRound []
    return .node .mediaQueryList start.pos children

end Stylesheet.Cursor
