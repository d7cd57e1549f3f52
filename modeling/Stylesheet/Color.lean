import Stylesheet.Text.Chars

/-!
# Colors

Red, green, blue and opacity, a byte each, with their hexadecimal spelling.
-/

namespace Stylesheet

structure Color where
  red : UInt8
  green : UInt8
  blue : UInt8
  /-- 255 is opaque. -/
  alpha : UInt8 := 255
deriving DecidableEq, Repr, Inhabited

namespace Color

/-- The byte that two digits spell. -/
def byte (high low : Char) : UInt8 := .ofNat (16 * hexValue high + hexValue low)

/-- Reads `rgb`, `rrggbb` or `rrggbbaa`. A single digit stands for two. -/
def ofHex? (s : String) : Option Color :=
  let digits := s.toList
  if digits.all isHexDigit then
    match digits with
    | [r, g, b] => some ⟨byte r r, byte g g, byte b b, 255⟩
    | [r, r', g, g', b, b'] => some ⟨byte r r', byte g g', byte b b', 255⟩
    | [r, r', g, g', b, b', a, a'] => some ⟨byte r r', byte g g', byte b b', byte a a'⟩
    | _ => none
  else none

/-- Two hexadecimal digits. -/
def twoDigits (b : UInt8) : List Char :=
  [Nat.digitChar (b.toNat / 16), Nat.digitChar (b.toNat % 16)]

/-- `#rrggbb`, with the opacity if there is less than full. -/
def toChars (c : Color) : List Char :=
  '#' :: (twoDigits c.red ++ twoDigits c.green ++ twoDigits c.blue ++
    if c.alpha = 255 then [] else twoDigits c.alpha)

def toText (c : Color) : String := String.ofList c.toChars

end Color

end Stylesheet
