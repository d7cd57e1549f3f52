import Stylesheet.Text.Chars

/-!
# Positions and spans in a text

A position is a line and a column, both counted from one; columns count UTF-16 code units. A line
ends at a line feed, a form feed, a carriage return, or a carriage return and line feed together.
`Position.after` is where a reader stands behind a run of characters; `Span` is a pair of positions.
-/

namespace Stylesheet

/-- The number of UTF-16 code units of a character: two above the basic plane. -/
def unitsUTF16 (c : Char) : Nat := if c.toNat < 0x10000 then 1 else 2

/-- A place in a text, in front of a character. -/
structure Position where
  line : Nat
  column : Nat
deriving DecidableEq, Repr, Inhabited

namespace Position

/-- The front of a text. -/
def start : Position := ⟨1, 1⟩

/-- Whether a line ends behind `c` when `rest` follows: at a carriage return only if no line feed
    follows, which then ends the line itself. -/
def endsLine (c : Char) (rest : List Char) : Bool :=
  isNewline c && !(c == '\r' && rest.head? == some '\n')

/-- The place behind `text`, read from `p` on. -/
def after (p : Position) : List Char → Position
  | [] => p
  | c :: rest =>
    if endsLine c rest then after ⟨p.line + 1, 1⟩ rest
    else after ⟨p.line, p.column + unitsUTF16 c⟩ rest

/-- Reading order: by line, then by column. -/
def compare (p q : Position) : Ordering :=
  (Ord.compare p.line q.line).then (Ord.compare p.column q.column)

/-- `p` stands at or in front of `q`. -/
def le (p q : Position) : Bool := p.compare q != .gt

def min (p q : Position) : Position := if p.le q then p else q

def max (p q : Position) : Position := if p.le q then q else p

def toText (p : Position) : String := toString p.line ++ ":" ++ toString p.column

@[simp] theorem after_nil (p : Position) : p.after [] = p := rfl

end Position

/-- A stretch of a text: from `start` up to, not including, `stop`. -/
structure Span where
  start : Position
  stop : Position
deriving DecidableEq, Repr, Inhabited

namespace Span

/-- The span of something that stands nowhere in a text. -/
def nowhere : Span := ⟨⟨0, 0⟩, ⟨0, 0⟩⟩

/-- The empty stretch at a position. -/
def point (p : Position) : Span := ⟨p, p⟩

/-- The least span that covers both. -/
def hull (a b : Span) : Span := ⟨a.start.min b.start, a.stop.max b.stop⟩

def toText (s : Span) : String := s.start.toText ++ "-" ++ s.stop.toText

end Span

end Stylesheet
