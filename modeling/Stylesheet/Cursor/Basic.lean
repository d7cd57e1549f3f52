import Stylesheet.Problem
import Stylesheet.Tree

/-!
# Reading through a cursor

A cursor holds a whole list of tokens and the place of the one that comes next. It looks at that token
and at those behind it, and moves by one token at a time; at an `eof` it stays. A run moves a cursor
and may get stuck, which is `none`; an attempt may stop at a token that does not fit. What is read in
rounds is a `loop`, which ends only if one of its rounds says so, and is stuck once a round goes on
from where it began.
-/

namespace Stylesheet

/-- What does not fit, as it is reported. -/
structure SyntaxError where
  kind : ProblemKind
  span : Span
  params : List (String × String)

/-- A list of tokens and where it comes from. -/
structure Input where
  source : String
  tokens : List Token

/-- An input, the place of the token that comes next, and the problems found so far. -/
structure Cursor extends Input where
  pos : Nat
  problems : List Problem

namespace Cursor

/-- The token at the cursor. Behind all tokens that is the last one. -/
def current (c : Cursor) : Option Token := c.tokens[c.pos]?.or c.tokens.getLast?

/-- The kind of the token at the cursor; where there are no tokens, the end of the input. -/
def kind (c : Cursor) : TokenKind := (c.current.map Token.kind).getD .eof

/-- The kind of the token some places ahead, whitespace included. -/
def kindAhead? (c : Cursor) (offset : Nat) : Option TokenKind :=
  c.tokens[c.pos + offset]?.map Token.kind

/-- The kind of the first token behind the current one that is not whitespace. -/
def nextKind? (c : Cursor) : Option TokenKind :=
  ((c.tokens.drop (c.pos + 1)).find? fun t => !t.isWhitespace).map Token.kind

def atEof (c : Cursor) : Bool := c.kind == .eof

/-- The place of the token at the cursor. -/
def span (c : Cursor) : Span := (c.current.map Token.span).getD .nowhere

/-- The token at the cursor, described for a message. -/
def found (c : Cursor) : String := (c.current.map Token.describe).getD TokenKind.eof.describe

def spanOf (c : Cursor) (index : Nat) : Span := (c.tokens[index]?.map Token.span).getD .nowhere

def textOf (c : Cursor) (index : Nat) : String := (c.tokens[index]?.map Token.text).getD ""

/-- The token at the cursor is not what the grammar asks for. -/
def unexpected (c : Cursor) (expected : String) : SyntaxError :=
  ⟨.unexpectedToken, c.span, [("expected", expected), ("found", c.found)]⟩

def malformedSelector (c : Cursor) (reason : String) : SyntaxError :=
  ⟨.malformedSelector, c.span, [("reason", reason)]⟩

def malformedMedia (c : Cursor) (reason : String) : SyntaxError :=
  ⟨.malformedMediaQuery, c.span, [("reason", reason)]⟩

/-- What moves a cursor, unless it gets stuck. -/
abbrev Run := StateT Cursor Option

/-- What moves a cursor, and may stop at a token that does not fit. -/
abbrev Attempt := ExceptT SyntaxError Run

/-- The cursor behind the current token, or where it is if that is an `eof`. -/
def next (c : Cursor) : Cursor := if c.atEof then c else { c with pos := c.pos + 1 }

/-- Goes past the current token, and gives its number. It never goes past an `eof`. -/
def bump : Run Nat := do
  let c ← get
  set c.next
  return min c.pos (c.tokens.length - 1)

/-- Goes past the current token, which becomes a leaf. -/
def token : Run Tree := return .leaf (← bump)

/-- Stops where the cursor stands, if that is no place to go on. -/
def refuse (p : Cursor → Bool) (error : Cursor → SyntaxError) : Attempt Unit := do
  let c ← get
  if p c then throw (error c) else return ()

/-- The next token, which has to be of a kind. -/
def expect (p : TokenKind → Bool) (error : Cursor → SyntaxError) : Attempt Tree := do
  refuse (fun c => !p c.kind) error
  token

/-- The next token if it is of a kind. -/
def optional (p : TokenKind → Bool) : Run (Option Tree) := do
  if p (← get).kind then return some (← token) else return none

/-- Puts a problem behind those found so far. -/
def report (e : SyntaxError) : Run Unit :=
  modify fun c => { c with problems := c.problems ++ [.ofParams e.kind c.source e.span e.params] }

/-! ## Loops -/

/-- How a round ends: the loop goes on from a state, or it is left with a result. -/
inductive Step (σ α : Type) where
  | again (state : σ)
  | done (result : α)

variable {σ α : Type}

/-- The number of tokens from the cursor on. -/
def remaining (c : Cursor) : Nat := c.tokens.length - c.pos

/-- Round after round, until one leaves the loop. -/
def loopFrom (round : σ → Run (Step σ α)) (state : σ) (c : Cursor) : Option (α × Cursor) :=
  match (round state).run c with
  | none => none
  | some (.done result, d) => some (result, d)
  | some (.again next, d) => if d.remaining < c.remaining then loopFrom round next d else none
termination_by c.remaining

def loop (round : σ → Run (Step σ α)) (state : σ) : Run α := loopFrom round state

/-- A round that stops leaves the loop. -/
def settle (round : Attempt (Step σ α)) : Run (Step σ (Except SyntaxError α)) := do
  match ← round.run with
  | .ok (.again state) => return .again state
  | .ok (.done result) => return .done (.ok result)
  | .error e => return .done (.error e)

/-- As `loop`, with rounds that may stop. -/
def attempt (round : σ → Attempt (Step σ α)) (state : σ) : Attempt α :=
  .mk (loop (fun state => settle (round state)) state)

/-! ## Whitespace -/

/-- A round that goes past one whitespace token, and keeps the number of the first. -/
def blankRound (first : Option Nat) : Run (Step (Option Nat) (Option Nat)) := do
  if (← get).kind == .whitespace then
    let index ← bump
    return .again (first.or (some index))
  else return .done first

/-- Goes past whitespace, and gives the number of the first such token. -/
def skipBlanks : Run (Option Nat) := loop blankRound none

/-- Goes past whitespace. -/
def blanks : Run Unit := do
  let _ ← skipBlanks
  return ()

/-- Goes past whitespace behind what may have been read. -/
def blanksBehind (read : Option Tree) : Run Unit :=
  match read with
  | none => return ()
  | some _ => blanks

end Cursor

end Stylesheet
