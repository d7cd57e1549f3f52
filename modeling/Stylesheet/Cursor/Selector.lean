import Stylesheet.Cursor.Basic
import Stylesheet.Grammar.Selector

/-!
# Selectors read through a cursor

Selectors, the compounds of a selector and the conditions of a compound are read in rounds, and so is
the argument of a pseudo-class. A selector list ends in front of the brace of its block, which is not
taken.
-/

namespace Stylesheet.Cursor

open Grammar

/-- `#name`, which has to be an identifier. -/
def idSelector : Attempt Tree := do
  let id ← expect (fun k => match k with | .hash _ isId => isId | _ => false) fun c =>
    c.malformedSelector ("'" ++ (c.current.map Token.text).getD "" ++ "' is not a valid id")
  return single .idSelector id

/-- `.name`. -/
def classSelector : Attempt Tree := do
  let dot ← token
  let name ← expect TokenKind.isIdent (·.malformedSelector "expected class name after '.'")
  return .node .classSelector dot.first [dot, name]

/-- `[name]` or `[name comparison value]`. -/
def attributeSelector : Attempt Tree := do
  let bracket ← token
  blanks
  let name ← expect TokenKind.isIdent (·.malformedSelector "expected attribute name")
  blanks
  let matcher ← attributeMatcher
  let close ← expect (· == .closing .square) (·.malformedSelector "expected ']'")
  return .node .attributeSelector bracket.first (bracket :: name :: (matcher ++ [close]))
where
  attributeMatcher : Attempt (List Tree) := do
    match ← optional isComparison with
    | none => return []
    | some comparison =>
      blanks
      let value ← expect (fun k => match k with | .ident _ | .string _ => true | _ => false)
        (·.malformedSelector "expected attribute value")
      blanks
      return [comparison, value]

/-- How the argument of a pseudo-class goes on behind a token, with the number of open brackets. -/
def argumentNext (children : List Tree) (depth : Nat) (k : TokenKind) :
    Step (List Tree × Nat) (List Tree) :=
  if k.opens?.isSome then .again (children, depth + 1)
  else if k == .closing .paren then
    if depth == 0 then .done children else .again (children, depth - 1)
  else .again (children, depth)

/-- A round of the argument of a pseudo-class. -/
def argumentRound : List Tree × Nat → Attempt (Step (List Tree × Nat) (List Tree))
  | (children, depth) => do
    let c ← get
    if c.atEof then throw (c.malformedSelector "unterminated pseudo-class argument")
    else
      let next ← token
      return argumentNext (children ++ [next]) depth c.kind

/-- `:name`, `::name` or `:name(argument)`. -/
def pseudoSelector : Attempt Tree := do
  let colon ← token
  let second ← optional (· == .colon)
  let children := colon :: second.toList
  let c ← get
  match c.kind with
  | .ident _ =>
    let name ← token
    return .node .pseudoSelector colon.first (children ++ [name])
  | .function _ =>
    let function ← token
    let children ← attempt argumentRound (children ++ [function], 0)
    return .node .pseudoSelector colon.first children
  | _ => throw (c.malformedSelector "expected pseudo-class name after ':'")

/-- `name|`, `*|` or a bare bar. -/
def namespacePrefix? : Run (Option Tree) := do
  let c ← get
  if c.kind == .bar then
    let bar ← token
    return some (single .namespacePrefix bar)
  else if isNameOrAny c.kind && c.kindAhead? 1 == some .bar then
    let name ← token
    let bar ← token
    return some (.node .namespacePrefix name.first [name, bar])
  else return none

/-- The element that a compound names: with a prefix it has to. -/
def elementName? (hasPrefix : Bool) : Attempt (Option Tree) := do
  refuse (fun c => hasPrefix && !isNameOrAny c.kind)
    (·.malformedSelector "expected element name after '|'")
  let name ← optional isNameOrAny
  return name.map (single .elementName)

/-- The condition that a token begins. -/
def condition? : TokenKind → Option (Attempt Tree)
  | .hash .. => some idSelector
  | .dot => some classSelector
  | .opening .square => some attributeSelector
  | .colon => some pseudoSelector
  | _ => none

/-- A round of the conditions of a compound. -/
def conditionRound (children : List Tree) : Attempt (Step (List Tree) (List Tree)) := do
  let c ← get
  match condition? c.kind with
  | some condition => return .again (children ++ [← condition])
  | none => return .done children

/-- The trees of a compound selector. -/
def compoundParts : Attempt (List Tree) := do
  let nsPrefix ← namespacePrefix?
  let element ← elementName? nsPrefix.isSome
  attempt conditionRound (nsPrefix.toList ++ element.toList)

/-- A compound selector. -/
def compound : Attempt Tree := do
  let start ← get
  let children ← compoundParts
  refuse (fun _ => children.isEmpty)
    fun c => c.malformedSelector ("expected selector but found " ++ c.found)
  return .node .simpleSelector start.pos children

/-- The combinator in front of the next compound, if there is one to come. -/
def combinator? : Attempt (Option Tree) := do
  let whitespace ← skipBlanks
  let c ← get
  if isCombinator c.kind then
    let combinator ← token
    blanks
    return some (single .combinator combinator)
  else if startsCompound c.kind then
    match whitespace with
    | some space => return some (single .combinator (.leaf space))
    | none => throw (c.malformedSelector ("unexpected " ++ c.found))
  else return none

/-- A round of a selector: a combinator and a compound. -/
def selectorRound (children : List Tree) : Attempt (Step (List Tree) (List Tree)) := do
  match ← combinator? with
  | some combinator => return .again (children ++ [combinator, ← compound])
  | none => return .done children

/-- Compounds joined by combinators. -/
def selector : Attempt Tree := do
  let start ← get
  let first ← compound
  let children ← attempt selectorRound [first]
  return .node .selector start.pos children

/-- A round of a selector list: a selector, and a comma or the end of the list. -/
def selectorListRound (children : List Tree) : Attempt (Step (List Tree) (List Tree)) := do
  let next ← selector
  match ← optional (· == .comma) with
  | some comma =>
    blanks
    return .again (children ++ [next, comma])
  | none =>
    refuse (fun c => !(c.kind == .opening .brace))
      fun c => c.malformedSelector ("unexpected " ++ c.found)
    return .done (children ++ [next])

/-- The selectors of a rule, up to the brace of its block. -/
def selectorList : Attempt Tree := do
  let start ← get
  let children ← attempt selectorListRound []
  return .node .selectorList start.pos children

end Stylesheet.Cursor
