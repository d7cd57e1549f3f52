import Stylesheet.Lexeme
import Stylesheet.Options
import Stylesheet.Problem

/-!
# The tokens of a text

Lexemes become tokens: comments, markup marks and stray characters are left out, the latter with a
problem each, and `url("…")` becomes one token. On the way the brackets are followed. A closing
bracket ends a block only if it fits the innermost open one, otherwise it is a token like any other;
a block opened beyond the nesting limit ends the work (`TokenStream.tooDeep`).
-/

namespace Stylesheet

/-- A block nested deeper than allowed: the limit, and where the block opens. -/
structure TooDeep where
  limit : Nat
  position : Position
deriving DecidableEq, Repr

namespace TooDeep

def message (e : TooDeep) : String :=
  "Blocks nested deeper than " ++ toString e.limit ++ " levels at " ++ e.position.toText

end TooDeep

/-- Tokens with the problems found on the way, up to the place where the work ended. -/
structure TokenStream where
  tokens : List Token
  problems : List Problem
  tooDeep : Option TooDeep
deriving DecidableEq

namespace TokenStream

/-- Puts tokens and problems in front. -/
def onto (tokens : List Token) (problems : List Problem) (s : TokenStream) : TokenStream :=
  { s with tokens := tokens ++ s.tokens, problems := problems ++ s.problems }

end TokenStream

namespace Lexeme

/-- Whether a lexeme stands for no token of weight: it may stand between the parts of a quoted
    address. -/
def isIgnorable (l : Lexeme) : Bool :=
  match l.kind with
  | .token k => k == .whitespace
  | .comment | .markupMark | .stray _ => true
  | .cutString _ | .malformedUrl _ => false

/-- The content of a string, cut off or not. -/
def stringValue? (l : Lexeme) : Option String :=
  match l.kind with
  | .token (.string value) => some value
  | .cutString value => some value
  | _ => none

/-- What is wrong with a lexeme by itself. -/
def problems (source : String) (l : Lexeme) : List Problem :=
  match l.kind with
  | .token (.string _) =>
    if isClosedString l.text.toList then []
    else [.ofParams .unterminatedString source l.span []]
  | .token _ => []
  | .comment =>
    if isClosedComment l.text.toList then []
    else [.ofParams .unterminatedComment source l.span []]
  | .markupMark => []
  | .cutString _ => [.ofParams .unterminatedString source l.span []]
  | .malformedUrl content => [.ofParams .badUrl source l.span [("url", content)]]
  | .stray c =>
    if c == '\\' then [.ofParams .badEscape source l.span []]
    else [.ofParams .unexpectedCharacter source l.span [("character", c.toString)]]

/-- The token that a lexeme stands for. -/
def token? (l : Lexeme) : Option Token :=
  match l.kind with
  | .token k => some ⟨k, l.text, l.span⟩
  | .cutString value => some ⟨.string value, l.text, l.span⟩
  | .malformedUrl content => some ⟨.url content, l.text, l.span⟩
  | .comment | .markupMark | .stray _ => none

/-- The bracket that a lexeme opens. -/
def opens? (l : Lexeme) : Option Bracket :=
  match l.kind with
  | .token k => k.opens?
  | _ => none

/-- Whether the lexeme is the closing bracket `b`. -/
def closes (l : Lexeme) (b : Bracket) : Bool := l.kind == .token (.closing b)

/-- The lexemes behind a `url` function, if they are a string and the closing parenthesis: the
    content of the string, and the lexemes up to the parenthesis. -/
def quotedAddress? (ls : List Lexeme) : Option (String × List Lexeme) :=
  match ls.dropWhile isIgnorable with
  | [] => none
  | s :: behind =>
    match s.stringValue?, behind.dropWhile isIgnorable with
    | some value, close :: rest =>
      if close.closes .paren then some (value, ls.take (ls.length - rest.length)) else none
    | _, _ => none

/-- The one token that `url("…")` stands for, if the lexeme begins one. -/
def quotedUrl? (l : Lexeme) (ls : List Lexeme) : Option Token :=
  match l.kind with
  | .token (.function name) =>
    if sameWord name "url" then
      (quotedAddress? ls).map fun (value, inner) =>
        ⟨.url value, String.join ((l :: inner).map Lexeme.text),
          ⟨l.span.start, ((l :: inner).getLast (List.cons_ne_nil l inner)).span.stop⟩⟩
    else none
  | _ => none

end Lexeme

/-- An open block. One that belongs to a quoted address gives no tokens of its own. -/
structure Block where
  bracket : Bracket
  silent : Bool
deriving DecidableEq

namespace TokenStream

/-- Whether lexemes inside the innermost block give tokens. -/
def isSilent (blocks : List Block) : Bool :=
  match blocks with
  | [] => false
  | b :: _ => b.silent

/-- The blocks that are open behind a lexeme which opens none. -/
def close (l : Lexeme) (blocks : List Block) : List Block :=
  match blocks with
  | [] => []
  | b :: outer => if l.closes b.bracket then outer else blocks

/-- The tokens of a run of lexemes inside `blocks`, the innermost block first. -/
def ofLexemes (source : String) (limit : Nat) (blocks : List Block) : List Lexeme → TokenStream
  | [] => ⟨[], [], none⟩
  | l :: ls =>
    match l.opens? with
    | none =>
      let tokens := if isSilent blocks then [] else l.token?.toList
      (ofLexemes source limit (close l blocks) ls).onto tokens (l.problems source)
    | some bracket =>
      if limit ≤ blocks.length then ⟨[], [], some ⟨limit, l.span.start⟩⟩
      else
        match l.quotedUrl? ls with
        | some token =>
          -- the parts of the address still report what is wrong with them
          (ofLexemes source limit (⟨bracket, true⟩ :: blocks) ls).onto [token] []
        | none =>
          (ofLexemes source limit (⟨bracket, false⟩ :: blocks) ls).onto l.token?.toList []

/-- The token that ends every list of tokens. -/
def eofAt (p : Position) : Token := ⟨.eof, "", .point p⟩

end TokenStream

/-- The tokens of a text, and what is wrong with its characters. The last token is `eof`, behind the
    last character. -/
def tokenize (source : String) (text : List Char) (options : Options) : TokenStream :=
  let lexemes := Lexeme.scan .start text
  let stream := TokenStream.ofLexemes source options.maxNestingDepth [] lexemes
  let stop := (lexemes.getLast?.map (·.span.stop)).getD .start
  if stream.tooDeep.isSome then stream
  else { stream with tokens := stream.tokens ++ [TokenStream.eofAt stop] }

end Stylesheet
