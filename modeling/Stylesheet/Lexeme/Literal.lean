import Stylesheet.Lexeme.Name

/-!
# Strings and comments

A string runs to the quote that it began with. A bare newline cuts it off and stays in front of what
follows; the end of the text ends it without a quote. The text of a string and of a comment shows
whether it was closed: `isClosedString`, `isClosedComment`.
-/

namespace Stylesheet

/-- How a string ended. -/
inductive StringEnd where
  | closed
  | newline
  | endOfText
deriving DecidableEq, Repr

/-- A string as it was read: decoded content, how it ended, and the characters behind it. -/
structure QuotedText where
  value : List Char
  ending : StringEnd
  rest : List Char

namespace QuotedText

def cons (c : Char) (q : QuotedText) : QuotedText := { q with value := c :: q.value }

end QuotedText

/-- Reads a string behind its opening `quote`. A backslash and a newline stand for nothing. -/
def quotedText (quote : Char) : List Char → QuotedText
  | [] => ⟨[], .endOfText, []⟩
  | c :: rest =>
    if c == quote then ⟨[], .closed, rest⟩
    else if isNewline c then ⟨[], .newline, c :: rest⟩
    else if c == '\\' then
      if rest.isEmpty then ⟨[], .endOfText, []⟩
      else if startsNewline rest then
        have := (dropBlank_suffix rest).length_le
        quotedText quote (dropBlank rest)
      else
        have := (escape_suffix rest).length_le
        (quotedText quote (escape rest).2).cons (escape rest).1
    else (quotedText quote rest).cons (unNul c)
termination_by cs => cs.length

theorem quotedText_suffix (quote : Char) (cs : List Char) : (quotedText quote cs).rest <:+ cs := by
  fun_induction quotedText quote cs with
  | case1 => exact List.suffix_refl _
  | case2 c rest => exact List.suffix_cons c rest
  | case3 => exact List.suffix_refl _
  | case4 => exact List.nil_suffix
  | case5 c rest _ _ _ _ _ _ ih =>
    exact ih.trans ((dropBlank_suffix rest).trans (List.suffix_cons c rest))
  | case6 c rest _ _ _ _ _ _ ih =>
    exact ih.trans ((escape_suffix rest).trans (List.suffix_cons c rest))
  | case7 c rest _ _ _ ih => exact ih.trans (List.suffix_cons c rest)

/-- What follows a comment, read behind its opening mark. -/
def behindComment : List Char → List Char
  | [] => []
  | c :: rest => if c == '*' && rest.head? == some '/' then rest.tail else behindComment rest

theorem behindComment_suffix : ∀ cs : List Char, behindComment cs <:+ cs
  | [] => List.suffix_refl _
  | c :: rest => by
    simp only [behindComment]
    split
    · exact (List.tail_suffix rest).trans (List.suffix_cons c rest)
    · exact (behindComment_suffix rest).trans (List.suffix_cons c rest)

/-- Whether the text of a comment ends in a closing mark that is not part of its opening one. -/
def isClosedComment (text : List Char) : Bool :=
  4 ≤ text.length && ['/', '*'].isPrefixOf text.reverse

/-- Whether the text of a string ends in the quote that it begins with, and an even number of
    backslashes in front of that, so that the quote is no escaped one. -/
def isClosedString : List Char → Bool
  | [] => false
  | quote :: body =>
    match body.reverse with
    | [] => false
    | last :: inner => last == quote && (inner.takeWhile (· == '\\')).length % 2 == 0

end Stylesheet
