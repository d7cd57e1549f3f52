import Stylesheet.Cursor.MediaQuery
import Stylesheet.Cursor.Selector
import Stylesheet.Grammar.Statement

/-!
# Statements read through a cursor

What does not fit is reported, skipped and kept as a node of skipped tokens, and reading goes on behind
it. So blocks and stylesheets are runs: they do not stop before the input does.
-/

namespace Stylesheet.Cursor

open Grammar

/-! ## Skipping -/

/-- A round of a skip, with what was skipped and the number of open brackets. It is over at the end of
    the input and in front of a token that stops it; behind any other token it goes on as `next` says. -/
def skipRound {α : Type} (stops : Nat → TokenKind → Bool) (last : List Tree → α)
    (next : List Tree → Nat → TokenKind → Step (List Tree × Nat) α) :
    List Tree × Nat → Run (Step (List Tree × Nat) α)
  | (skipped, depth) => do
    let c ← get
    if c.atEof || stops depth c.kind then return .done (last skipped)
    else
      let t ← token
      return next (skipped ++ [t]) depth c.kind

/-- A closing brace outside of all brackets closes what is around. -/
def closesAround (depth : Nat) (k : TokenKind) : Bool := depth == 0 && k == .closing .brace

/-- The skip of a declaration ends behind a semicolon outside of all brackets. -/
def skipDeclarationNext (skipped : List Tree) (depth : Nat) (k : TokenKind) :
    Step (List Tree × Nat) (List Tree) :=
  if depth == 0 && k == .semicolon then .done skipped
  else if k.opens?.isSome then .again (skipped, depth + 1)
  else if k.isClosing then .again (skipped, depth - 1)
  else .again (skipped, depth)

def skipDeclarationRound : List Tree × Nat → Run (Step (List Tree × Nat) (List Tree)) :=
  skipRound closesAround id skipDeclarationNext

/-- Skips the rest of a declaration. -/
def recoverDeclaration : Run Tree := do
  let start ← get
  let skipped ← loop skipDeclarationRound ([], 0)
  return .node .error start.pos skipped

/-- The skip of a rule ends behind the brace that closes it. The result says whether no brace was
    opened before that one. -/
def skipRuleNext (skipped : List Tree) (depth : Nat) (k : TokenKind) :
    Step (List Tree × Nat) (List Tree × Bool) :=
  if k == .opening .brace then .again (skipped, depth + 1)
  else if k == .closing .brace then
    if depth ≤ 1 then .done (skipped, depth == 0) else .again (skipped, depth - 1)
  else .again (skipped, depth)

def skipRuleRound : List Tree × Nat → Run (Step (List Tree × Nat) (List Tree × Bool)) :=
  skipRound (fun _ _ => false) (·, false) skipRuleNext

/-- Skips the rest of a rule. The flag is set if that took the brace of the block around it. -/
def recoverRule : Run (Tree × Bool) := do
  let start ← get
  let (skipped, closedOuter) ← loop skipRuleRound ([], 0)
  return (.node .error start.pos skipped, closedOuter)

/-- The skip of an at-rule ends behind a semicolon outside of all braces, and behind the brace that
    closes the first. -/
def skipStatementNext (skipped : List Tree) (depth : Nat) (k : TokenKind) :
    Step (List Tree × Nat) (List Tree) :=
  if depth == 0 && k == .semicolon then .done skipped
  else if k == .opening .brace then .again (skipped, depth + 1)
  else if k == .closing .brace then
    if depth - 1 == 0 then .done skipped else .again (skipped, depth - 1)
  else .again (skipped, depth)

def skipStatementRound : List Tree × Nat → Run (Step (List Tree × Nat) (List Tree)) :=
  skipRound closesAround id skipStatementNext

/-- Skips the rest of an at-rule. -/
def skipStatement : Run (List Tree) := loop skipStatementRound ([], 0)

/-- A token that begins nothing. -/
def strayToken (expected : String) : Run Tree := do
  let c ← get
  report (c.unexpected expected)
  let stray ← token
  return .node .error stray.first [stray]

/-! ## Declarations -/

/-- The semicolon of a declaration. In front of a closing brace and at the end there may be none. -/
def declarationEnd : Attempt (List Tree) := do
  match ← optional (· == .semicolon) with
  | some semicolon => return [semicolon]
  | none =>
    refuse (fun c => !(c.atEof || c.kind == .closing .brace)) fun c => ⟨.missingSemicolon, c.span, []⟩
    return []

/-- `name: value !important;` -/
def declaration : Attempt Tree := do
  let name ← expect TokenKind.isIdent (·.unexpected "property name")
  blanks
  let colon ← expect (· == .colon) (·.unexpected "':'")
  blanks
  refuse (fun c => c.atEof || endsEmpty c.kind) fun c =>
    ⟨.missingPropertyValue, c.spanOf name.first, [("property", c.textOf name.first)]⟩
  let value ← value false
  blanks
  let important ← optional (· == .important)
  blanksBehind important
  let semicolon ← declarationEnd
  return .node .declaration name.first
    (name :: colon :: value :: (important.toList ++ semicolon))

/-- A round of a block: its closing brace or the end of the input, a semicolon, or a declaration. -/
def declarationRound (children : List Tree) : Run (Step (List Tree) (List Tree)) := do
  blanks
  let c ← get
  if c.kind == .closing .brace then
    let close ← token
    return .done (children ++ [close])
  else if c.atEof then
    report ⟨.missingCloseBrace, c.span, []⟩
    return .done children
  else if c.kind == .semicolon then
    let semicolon ← token
    return .again (children ++ [semicolon])
  else
    match ← declaration.run with
    | .ok declaration => return .again (children ++ [declaration])
    | .error e =>
      report e
      let skipped ← recoverDeclaration
      return .again (children ++ [skipped])

/-- A block from its opening brace on. -/
def declarationBlock : Run Tree := do
  let brace ← token
  let children ← loop declarationRound [brace]
  return .node .declarationBlock brace.first children

/-! ## Rules -/

def ruleInner : Attempt Tree := do
  let start ← get
  let selectors ← selectorList
  let block ← declarationBlock
  return .node .rule start.pos [selectors, block]

/-- A style rule. The flag is set if skipping it took the brace of the block around it. -/
def rule : Run (Tree × Bool) := do
  match ← ruleInner.run with
  | .ok rule => return (rule, false)
  | .error e =>
    report e
    recoverRule

/-- An at-rule that is not read. -/
def unknownAtRule : Run Tree := do
  let keyword ← token
  let skipped ← skipStatement
  return .node .unknownAtRule keyword.first (keyword :: skipped)

/-- The semicolon of a namespace rule, or a problem at the end of its address. -/
def namespaceEnd (address : Nat) : Run (Option Tree) := do
  match ← optional (· == .semicolon) with
  | some semicolon => return some semicolon
  | none =>
    let c ← get
    report ⟨.missingSemicolon, .point (c.spanOf address).stop, []⟩
    return none

def namespaceRule : Attempt Tree := do
  let keyword ← token
  blanks
  let nsPrefix ← optional TokenKind.isIdent
  blanksBehind nsPrefix
  let address ← expect isAddress (·.unexpected "namespace URI")
  blanks
  let semicolon ← namespaceEnd address.first
  return .node .namespaceRule keyword.first
    (keyword :: ((nsPrefix.map (single .namespacePrefix)).toList ++ address :: semicolon.toList))

def fontFaceRule : Attempt Tree := do
  let keyword ← token
  blanks
  refuse (fun c => !(c.kind == .opening .brace)) (·.unexpected "'\x7b'")
  let block ← declarationBlock
  return .node .fontFaceRule keyword.first [keyword, block]

/-- A round of a media block: its closing brace or the end of the input, an at-rule, which has no
    meaning here, a stray semicolon, or a rule. -/
def mediaRound (children : List Tree) : Run (Step (List Tree) (List Tree)) := do
  blanks
  let c ← get
  if c.kind == .closing .brace then
    let close ← token
    return .done (children ++ [close])
  else if c.atEof then
    report ⟨.missingCloseBrace, c.span, []⟩
    return .done children
  else if (keyword? c.kind).isSome then
    let skipped ← unknownAtRule
    return .again (children ++ [skipped])
  else if c.kind == .semicolon then
    let stray ← strayToken "rule"
    return .again (children ++ [stray])
  else
    let (rule, closedOuter) ← rule
    -- skipping the rule took the brace of this block
    if closedOuter then return .done (children ++ [rule]) else return .again (children ++ [rule])

/-- What stands in a media block, behind the trees in front of it. -/
def mediaBlock (children : List Tree) : Run (List Tree) := loop mediaRound children

def mediaRule : Attempt Tree := do
  let keyword ← token
  blanks
  let queries ← mediaQueryList
  let brace ← token
  let children ← mediaBlock [keyword, queries, brace]
  return .node .mediaRule keyword.first children

/-- An at-rule of a stylesheet as it is read if it fits. -/
def knownAtRule (name : String) : Attempt Tree :=
  if sameWord name "namespace" then namespaceRule
  else if sameWord name "font-face" then fontFaceRule
  else if sameWord name "media" then mediaRule
  else unknownAtRule

/-- An at-rule of a stylesheet. -/
def atRule (name : String) : Run Tree := do
  let start ← get
  match ← (knownAtRule name).run with
  | .ok rule => return rule
  | .error e =>
    report e
    let skipped ← skipStatement
    return .node .error start.pos skipped

/-! ## Stylesheets -/

/-- The statement that begins at the cursor. -/
def statement : Run Tree := do
  let c ← get
  match keyword? c.kind with
  | some name => atRule name
  | none =>
    if c.kind == .closing .brace || c.kind == .semicolon then strayToken "rule or at-rule"
    else return (← rule).1

/-- A round of a stylesheet: a statement, or the end of the input. -/
def statementRound (children : List Tree) : Run (Step (List Tree) (List Tree)) := do
  blanks
  if (← get).atEof then return .done children
  else
    let statement ← statement
    return .again (children ++ [statement])

/-- A stylesheet. -/
def stylesheet : Run Tree := do
  let children ← loop statementRound []
  return .node .stylesheet (← get).pos children

/-- Reads a list of tokens from its beginning: the tree and where the cursor stands in the end, unless
    reading gets stuck. -/
def parse (source : String) (tokens : List Token) : Option (Tree × Cursor) :=
  stylesheet.run ⟨⟨source, tokens⟩, 0, []⟩

end Stylesheet.Cursor
