import Stylesheet.Text.Chars

/-!
# Writing names and strings

Escapes make any text a name or a string that reads back as it was; only the null character is lost,
which no text keeps. Control characters are written by their code with a blank behind it.
-/

namespace Stylesheet

/-- The code of a character as an escape. -/
def hexEscape (c : Char) : List Char := '\\' :: (hexDigits c.toNat ++ [' '])

/-- A character of a name. -/
def nameChar (c : Char) : List Char :=
  if c == nul then [replacement]
  else if isNameChar c then [c]
  else if isControl c then hexEscape c
  else ['\\', c]

/-- The rest of a name, behind what begins it. -/
def writeName (cs : List Char) : List Char := cs.flatMap nameChar

/-- A name that may begin with a digit, which has to be escaped there. -/
def writeNameStart : List Char → List Char
  | [] => []
  | c :: rest => if c.isDigit then hexEscape c ++ writeName rest else writeName (c :: rest)

/-- A name that stands by itself. A single dash is escaped, and so is a digit behind a dash. -/
def writeIdent : List Char → List Char
  | [] => []
  | ['-'] => ['\\', '-']
  | '-' :: '-' :: rest => '-' :: '-' :: writeName rest
  | '-' :: rest => '-' :: writeNameStart rest
  | cs => writeNameStart cs

/-- A character of a string. -/
def stringChar (c : Char) : List Char :=
  if c == '"' || c == '\\' then ['\\', c]
  else if c == nul then [replacement]
  else if isControl c then hexEscape c
  else [c]

/-- A string in double quotes. -/
def writeString (cs : List Char) : List Char := '"' :: (cs.flatMap stringChar ++ ['"'])

/-- A unit behind a number. An `e` that would read as an exponent is escaped. -/
def writeUnit (cs : List Char) : List Char :=
  match cs with
  | [] => []
  | c :: rest =>
    let mayBeExponent := match rest with
      | [] => true
      | d :: _ => d.isDigit || d == '+' || d == '-'
    if (c == 'e' || c == 'E') && mayBeExponent then hexEscape c ++ writeName rest
    else writeIdent cs

end Stylesheet
