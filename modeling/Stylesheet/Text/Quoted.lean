import Stylesheet.Text.Chars
import Stylesheet.Text.Printable

/-!
# Text in quotes, for display

`quoted` shows a text on one line between double quotes: a quote and a backslash get a backslash,
tab, carriage return, line feed and the null character their letter or digit, and every other
character that cannot be shown by itself its code point in braces.
-/

namespace Stylesheet

/-- One character between the quotes. -/
def quotedChar (c : Char) : List Char :=
  if c == '"' || c == '\\' then ['\\', c]
  else if c == '\t' then ['\\', 't']
  else if c == '\r' then ['\\', 'r']
  else if c == '\n' then ['\\', 'n']
  else if c == nul then ['\\', '0']
  else if isPrintable c then [c]
  else '\\' :: 'u' :: '\x7b' :: (hexDigits c.toNat ++ ['\x7d'])

def quoted (s : String) : String :=
  String.ofList ('"' :: (s.toList.flatMap quotedChar ++ ['"']))

end Stylesheet
