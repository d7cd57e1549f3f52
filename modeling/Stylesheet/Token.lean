import Stylesheet.Number.Decimal
import Stylesheet.Text.Position

/-!
# Tokens

The units of the grammar. A token keeps the text it was written as beside its decoded content, so
that nothing of the source is lost. A list of tokens ends with an `eof` token, and what stands
behind the first one does not count.
-/

namespace Stylesheet

/-- How an attribute selector compares: equal to the value, a word of a list, a dash-separated
    start, any start, any end, anywhere. -/
inductive Comparison where
  | equals
  | includes
  | dashMatch
  | beginsWith
  | endsWith
  | contains
deriving DecidableEq, Repr, Inhabited

namespace Comparison

def toText : Comparison → String
  | .equals => "="
  | .includes => "~="
  | .dashMatch => "|="
  | .beginsWith => "^="
  | .endsWith => "$="
  | .contains => "*="

end Comparison

/-- The three pairs of brackets. -/
inductive Bracket where
  | brace
  | paren
  | square
deriving DecidableEq, Repr, Inhabited

namespace Bracket

def opener : Bracket → String
  | .brace => "\x7b"
  | .paren => "("
  | .square => "["

def closer : Bracket → String
  | .brace => "\x7d"
  | .paren => ")"
  | .square => "]"

end Bracket

/-- What a token is, with its decoded content. A function token is a name with the parenthesis that
    follows it; a hash says whether its name could stand as an identifier. -/
inductive TokenKind where
  | whitespace
  | ident (name : String)
  | function (name : String)
  | atKeyword (name : String)
  | hash (name : String) (isId : Bool)
  | string (value : String)
  | url (address : String)
  | number (value : Single)
  | percentage (value : Single)
  | dimension (value : Single) (unit : String)
  | important
  | opening (bracket : Bracket)
  | closing (bracket : Bracket)
  | colon
  | semicolon
  | comma
  | dot
  | comparison (operator : Comparison)
  | greater
  | plus
  | tilde
  | asterisk
  | bar
  | slash
  | eof
deriving DecidableEq, Inhabited

namespace TokenKind

/-- The name of the kind in messages. -/
def describe : TokenKind → String
  | .whitespace => "whitespace"
  | .ident _ => "identifier"
  | .function _ => "function"
  | .atKeyword _ => "at-keyword"
  | .hash .. => "hash"
  | .string _ => "string"
  | .url _ => "url"
  | .number _ => "number"
  | .percentage _ => "percentage"
  | .dimension .. => "dimension"
  | .important => "'!important'"
  | .opening b => "'" ++ b.opener ++ "'"
  | .closing b => "'" ++ b.closer ++ "'"
  | .colon => "':'"
  | .semicolon => "';'"
  | .comma => "','"
  | .dot => "'.'"
  | .comparison op => "'" ++ op.toText ++ "'"
  | .greater => "'>'"
  | .plus => "'+'"
  | .tilde => "'~'"
  | .asterisk => "'*'"
  | .bar => "'|'"
  | .slash => "'/'"
  | .eof => "end of input"

/-- The bracket that a token opens. -/
def opens? : TokenKind → Option Bracket
  | .function _ => some .paren
  | .opening b => some b
  | _ => none

def isIdent : TokenKind → Bool
  | .ident _ => true
  | _ => false

def isClosing : TokenKind → Bool
  | .closing _ => true
  | _ => false

end TokenKind

/-- A token, the text it was written as, and where. -/
structure Token where
  kind : TokenKind
  text : String
  span : Span
deriving DecidableEq, Inhabited

namespace Token

def isWhitespace (t : Token) : Bool := t.kind == .whitespace

def isEof (t : Token) : Bool := t.kind == .eof

/-- The token in a message: its kind and text, or only what it is where there is no text to show. -/
def describe (t : Token) : String :=
  match t.kind with
  | .eof => "end of input"
  | .whitespace => "whitespace"
  | kind => kind.describe ++ " '" ++ t.text ++ "'"

end Token

end Stylesheet
