/-!
# Classes of characters

The classes that the scanner asks for (blanks, name characters, digits), comparison of words without
regard to the case of ASCII letters, and the removal of white space at both ends of a text.
-/

namespace Stylesheet

/-- The characters that end a line. -/
def isNewline (c : Char) : Bool := c == '\n' || c == '\r' || c == '\x0c'

/-- White space between tokens: space, tab, and the characters that end a line. -/
def isBlank (c : Char) : Bool := c == ' ' || c == '\t' || c == '\n' || c == '\r' || c == '\x0c'

def isASCII (c : Char) : Bool := c.toNat < 0x80

/-- The null character, which no decoded text keeps. -/
def nul : Char := '\x00'

/-- U+FFFD, written for what cannot be decoded. -/
def replacement : Char := '\ufffd'

/-- A character that can begin a name by itself. The null character stands for U+FFFD. -/
def isNameStart (c : Char) : Bool := c.isAlpha || c == '_' || c == nul || !isASCII c

/-- A character that can continue a name by itself. -/
def isNameChar (c : Char) : Bool := isNameStart c || c.isDigit || c == '-'

def isHexDigit (c : Char) : Bool :=
  c.isDigit || ('a' ≤ c && c ≤ 'f') || ('A' ≤ c && c ≤ 'F')

/-- The value of a hexadecimal digit. -/
def hexValue (c : Char) : Nat :=
  if c.isDigit then c.toNat - '0'.toNat
  else if 'a' ≤ c then c.toNat - 'a'.toNat + 10
  else c.toNat - 'A'.toNat + 10

/-- The value of a decimal digit. -/
def digitValue (c : Char) : Nat := c.toNat - '0'.toNat

/-- Lower-case hexadecimal digits, without padding. -/
def hexDigits (n : Nat) : List Char := Nat.toDigits 16 n

/-- A control character that an unquoted address may not hold and that quoting escapes. -/
def isControl (c : Char) : Bool := c.toNat < 0x20 || c.toNat == 0x7f

/-- The characters of `s`, with ASCII letters in lower case. -/
def foldCase (s : String) : List Char := s.toList.map Char.toLower

/-- Equality of words up to the case of ASCII letters. -/
def sameWord (a b : String) : Bool := foldCase a == foldCase b

/-- The white space that is cut off at the ends of a text: every character that Unicode calls
    `White_Space`, more than `isBlank`. -/
def isWhiteSpace (c : Char) : Bool :=
  let n := c.toNat
  (0x9 ≤ n && n ≤ 0xd) || n == 0x20 || n == 0x85 || n == 0xa0 || n == 0x1680 ||
    (0x2000 ≤ n && n ≤ 0x200a) || n == 0x2028 || n == 0x2029 || n == 0x202f || n == 0x205f ||
    n == 0x3000

/-- `s` without white space at its ends. -/
def trimmed (s : List Char) : List Char :=
  ((s.dropWhile isWhiteSpace).reverse.dropWhile isWhiteSpace).reverse

end Stylesheet
