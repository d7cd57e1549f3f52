import Stylesheet.Lexeme.Literal
import Stylesheet.Lexeme.Numeral
import Stylesheet.Lexeme.Address

/-!
# Lexemes

The text of a stylesheet cut into pieces from left to right, nothing left out: `scan` gives one lexeme
for each piece, with its kind, its text and its place. What a piece is depends on the characters in
it and on what follows, never on the brackets around it. Joined together, the texts of all lexemes
are the text that was scanned (`scan_text`).
-/

namespace Stylesheet

namespace Lexeme

/-- What a piece of text is: a token as it stands, a comment, `<!--` or `-->`, a string that a
    newline cut off, a malformed address, or a character that begins nothing. -/
inductive Kind where
  | token (kind : TokenKind)
  | comment
  | markupMark
  | cutString (value : String)
  | malformedUrl (content : String)
  | stray (c : Char)
deriving DecidableEq, Inhabited

end Lexeme

/-- A piece of the text and where it stands. -/
structure Lexeme where
  kind : Lexeme.Kind
  text : String
  span : Span
deriving DecidableEq, Inhabited

namespace Lexeme

/-- Blanks and comments, as far as they go. -/
def behindIgnored : List Char → List Char
  | [] => []
  | c :: rest =>
    if isBlank c then behindIgnored rest
    else if c == '/' && rest.head? == some '*' then
      have := (behindComment_suffix rest.tail).length_le
      have := (List.tail_suffix rest).length_le
      behindIgnored (behindComment rest.tail)
    else c :: rest
termination_by cs => cs.length

/-- The characters behind the word `important`, if it stands at the front, blanks and comments aside,
    and is no function name. -/
def important? (cs : List Char) : Option (List Char) :=
  let cs := behindIgnored cs
  let (word, behind) := name cs
  if beginsName cs && sameWord (String.ofList word) "important" && behind.head? != some '(' then
    some behind
  else none

/-- What follows the parenthesis of `url(`: an address. With a quote in front of it, it is left to be
    read as a string, and `url(` is a function. -/
def urlToken (functionName : String) (cs : List Char) : Kind × List Char :=
  let inner := cs.dropWhile isBlank
  if inner.head? == some '"' || inner.head? == some '\'' then
    (.token (.function functionName), cs)
  else
    match address inner with
    | .good value rest => (.token (.url (String.ofList value)), rest)
    | .malformed rest =>
      (.malformedUrl (String.ofList (inner.take (inner.length - rest.length))), rest.tail)

/-- A name at the front: an identifier, a function with its parenthesis, or an address. -/
def identLike (cs : List Char) : Kind × List Char :=
  let (letters, behind) := name cs
  let word := String.ofList letters
  match behind with
  | '(' :: rest =>
    if sameWord word "url" then urlToken word rest else (.token (.function word), rest)
  | _ => (.token (.ident word), behind)

def quotedToken (quote : Char) (cs : List Char) : Kind × List Char :=
  let q := quotedText quote cs
  let value := String.ofList q.value
  (if q.ending = .newline then .cutString value else .token (.string value), q.rest)

/-- Behind `#`: a name, which may also begin with a digit or a dash. -/
def hashToken (cs : List Char) : Kind × List Char :=
  if beginsName cs then (.token (.hash (String.ofList (name cs).1) true), (name cs).2)
  else if startsDigit cs || cs.head? == some '-' then
    (.token (.hash (String.ofList (name cs).1) false), (name cs).2)
  else (.stray '#', cs)

def atToken (cs : List Char) : Kind × List Char :=
  if beginsName cs then (.token (.atKeyword (String.ofList (name cs).1)), (name cs).2)
  else (.stray '@', cs)

/-- A character that an equals sign may follow. -/
def comparisonToken (op : Comparison) (alone : Kind) (cs : List Char) : Kind × List Char :=
  if cs.head? == some '=' then (.token (.comparison op), cs.tail) else (alone, cs)

/-- A lexeme that neither a blank, a number nor a name begins: its first character, and the rest of
    the text. -/
def punctuation (c : Char) (rest : List Char) : Kind × List Char :=
  match c with
  | '"' => quotedToken '"' rest
  | '\'' => quotedToken '\'' rest
  | '#' => hashToken rest
  | '@' => atToken rest
  | '/' => if rest.head? == some '*' then (.comment, behindComment rest.tail) else (.token .slash, rest)
  | '<' => if ['!', '-', '-'].isPrefixOf rest then (.markupMark, rest.drop 3) else (.stray c, rest)
  | '!' =>
    match important? rest with
    | some behind => (.token .important, behind)
    | none => (.stray c, rest)
  | '~' => comparisonToken .includes (.token .tilde) rest
  | '|' => comparisonToken .dashMatch (.token .bar) rest
  | '^' => comparisonToken .beginsWith (.stray c) rest
  | '$' => comparisonToken .endsWith (.stray c) rest
  | '*' => comparisonToken .contains (.token .asterisk) rest
  | '=' => (.token (.comparison .equals), rest)
  | '(' => (.token (.opening .paren), rest)
  | ')' => (.token (.closing .paren), rest)
  | '[' => (.token (.opening .square), rest)
  | ']' => (.token (.closing .square), rest)
  | '\x7b' => (.token (.opening .brace), rest)
  | '\x7d' => (.token (.closing .brace), rest)
  | ':' => (.token .colon, rest)
  | ';' => (.token .semicolon, rest)
  | ',' => (.token .comma, rest)
  | '.' => (.token .dot, rest)
  | '>' => (.token .greater, rest)
  | '+' => (.token .plus, rest)
  | _ => (.stray c, rest)

/-- The lexeme at the front of a text that is not empty, and what follows it. -/
def next (c : Char) (rest : List Char) : Kind × List Char :=
  if isBlank c then (.token .whitespace, rest.dropWhile isBlank)
  -- a sign or a point belongs to the number behind it before it is anything else
  else if startsMagnitude (splitSign (c :: rest)).2 then
    let (token, behind) := numericToken (c :: rest)
    (.token token, behind)
  else if c == '-' && ['-', '>'].isPrefixOf rest then (.markupMark, rest.drop 2)
  else if beginsName (c :: rest) then identLike (c :: rest)
  else punctuation c rest

theorem behindIgnored_suffix (cs : List Char) : behindIgnored cs <:+ cs := by
  fun_induction behindIgnored cs with
  | case1 => exact List.suffix_refl _
  | case2 c rest _ ih => exact ih.trans (List.suffix_cons c rest)
  | case3 c rest _ _ _ _ ih =>
    exact ih.trans ((behindComment_suffix _).trans
      ((List.tail_suffix rest).trans (List.suffix_cons c rest)))
  | case4 => exact List.suffix_refl _

theorem important?_suffix {cs behind : List Char} (h : important? cs = some behind) :
    behind <:+ cs := by
  simp only [important?] at h
  split at h
  · rw [← Option.some.inj h]
    exact (name_suffix _).trans (behindIgnored_suffix cs)
  · contradiction

theorem urlToken_suffix (functionName : String) (cs : List Char) :
    (urlToken functionName cs).2 <:+ cs := by
  simp only [urlToken]
  split
  · exact List.suffix_refl _
  · have h := (address_suffix (cs.dropWhile isBlank)).trans (List.dropWhile_suffix isBlank)
    split
    · rename_i e
      rw [e] at h
      exact h
    · rename_i e
      rw [e] at h
      exact (List.tail_suffix _).trans h

theorem punctuation_suffix (c : Char) (rest : List Char) : (punctuation c rest).2 <:+ rest := by
  have hash : (hashToken rest).2 <:+ rest := by
    unfold hashToken
    split
    · exact name_suffix rest
    · split
      · exact name_suffix rest
      · exact List.suffix_refl _
  have keyword : (atToken rest).2 <:+ rest := by
    unfold atToken
    split
    · exact name_suffix rest
    · exact List.suffix_refl _
  have compare (op : Comparison) (alone : Kind) : (comparisonToken op alone rest).2 <:+ rest := by
    unfold comparisonToken
    split
    · exact List.tail_suffix rest
    · exact List.suffix_refl _
  unfold punctuation
  split <;> try first
    | exact List.suffix_refl _
    | exact quotedText_suffix _ rest
    | exact hash
    | exact keyword
    | exact compare _ _
  · split
    · exact (behindComment_suffix _).trans (List.tail_suffix rest)
    · exact List.suffix_refl _
  · split
    · exact List.drop_suffix 3 rest
    · exact List.suffix_refl _
  · split
    · rename_i h
      exact important?_suffix h
    · exact List.suffix_refl _

theorem identLike_suffix (cs : List Char) : (identLike cs).2 <:+ (name cs).2 := by
  simp only [identLike]
  split
  · rename_i rest e
    rw [e]
    split
    · exact (urlToken_suffix _ rest).trans (List.suffix_cons _ rest)
    · exact List.suffix_cons _ rest
  · exact List.suffix_refl _

/-- Every lexeme has at least one character, and what follows it is an end of the text. -/
theorem next_suffix (c : Char) (rest : List Char) : (next c rest).2 <:+ rest := by
  unfold next
  split
  · exact List.dropWhile_suffix _
  · split
    · rename_i h
      exact (numericToken_suffix_numeral _).trans (numeral_suffix_tail h)
    · split
      · exact List.drop_suffix 2 rest
      · split
        · rename_i h
          exact (identLike_suffix _).trans (name_suffix_tail h)
        · exact punctuation_suffix c rest

/-- The lexemes of a text that begins at `p`. -/
def scan (p : Position) : List Char → List Lexeme
  | [] => []
  | c :: rest =>
    have := (next_suffix c rest).length_le
    let behind := (next c rest).2
    let text := (c :: rest).take (rest.length + 1 - behind.length)
    ⟨(next c rest).1, String.ofList text, ⟨p, p.after text⟩⟩ :: scan (p.after text) behind
termination_by cs => cs.length

/-- Nothing is left out and nothing is said twice. -/
theorem scan_text (p : Position) (cs : List Char) :
    (scan p cs).flatMap (fun l => l.text.toList) = cs := by
  fun_induction scan p cs with
  | case1 => rfl
  | case2 p c rest h behind text ih =>
    have hs : behind <:+ c :: rest := (next_suffix c rest).trans (List.suffix_cons c rest)
    obtain ⟨front, e⟩ := hs
    have hl : rest.length + 1 - behind.length = front.length := by
      have := congrArg List.length e
      simp only [List.length_append, List.length_cons] at this
      omega
    have ht : text = front := by
      show (c :: rest).take _ = front
      rw [hl, ← e, List.take_left]
    rw [List.flatMap_cons, ih]
    simp only [String.toList_ofList, ht]
    exact e

end Lexeme

end Stylesheet
