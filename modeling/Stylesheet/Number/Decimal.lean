import Stylesheet.Number.Binary
import Stylesheet.Text.Chars

/-!
# Decimal text of numbers

`Numeral` is a number as its digits are written. It is read in two ways: `Numeral.nearest` is the
number nearest to the written one, and `Numeral.accumulated` adds the digits up one by one in double
precision, so that long digit strings may end a little beside it.

Writing is positional and never uses an exponent. `Single.shortest` searches the decimal grids from
coarse to fine for the first that has a point which reads back as the number, which gives the fewest
digits; of two such points the nearer is taken.
-/

namespace Stylesheet

/-- A written number: sign, digits before and behind the point, and power of ten. -/
structure Numeral where
  negative : Bool
  whole : List Nat
  fraction : List Nat
  exponent : Option Int
deriving DecidableEq

/-- The number that decimal digits spell. -/
def ofDigits (digits : List Nat) : Nat := digits.foldl (fun n d => 10 * n + d) 0

namespace Binary

/-- The number nearest to `coefficient * 10 ^ power`. A power so large or so small that the result is
    an infinity or zero is not computed. -/
def ofDecimal (f : Format) (negative : Bool) (coefficient : Nat) (power : Int) : Binary f :=
  let order := (Nat.toDigits 10 coefficient).length + power
  if coefficient = 0 then zero f negative
  -- at least 8 ^ (order - 1), which no number of the format reaches
  else if f.width ≤ 3 * (order - 1) then .infinite negative
  -- below 8 ^ order, so less than half a unit
  else if 3 * order ≤ -(f.scale + 1 : Int) then zero f negative
  else if 0 ≤ power then
    ofRatio f negative (coefficient * Nat.pow 10 power.toNat * Nat.pow 2 f.scale) 1
  else ofRatio f negative (coefficient * Nat.pow 2 f.scale) (Nat.pow 10 (-power).toNat)

/-- The exponents whose power of ten is taken one step above the nearest number. `10 ^ 23` lies half
    way between two numbers, `10 ^ 210` less than a thousandth of a step below. -/
def raisedExponents : List Int := [23, 210]

/-- The power of ten with a whole exponent: the number nearest to it, and for `raisedExponents` the
    next one above. -/
def powerOfTen (exponent : Int) : Double :=
  let nearest : Double := ofDecimal .double false 1 exponent
  if exponent ∈ raisedExponents then nearest.outward else nearest

end Binary

namespace Numeral

/-- The number nearest to the written one. -/
def nearest (f : Format) (n : Numeral) : Binary f :=
  Binary.ofDecimal f n.negative (ofDigits (n.whole ++ n.fraction))
    (n.exponent.getD 0 - n.fraction.length)

/-- One tenth, rounded. -/
def tenth : Double := Binary.ofDecimal .double false 1 (-1)

/-- The digits before the point, each added to ten times the sum so far. -/
def sumWhole (digits : List Nat) : Double :=
  digits.foldl (fun sum d => sum * .ofNat .double 10 + .ofNat .double d) (.ofNat .double 0)

/-- The digits behind the point, each times the next power of a tenth. -/
def sumFraction (digits : List Nat) : Double :=
  (digits.foldl (fun (sum, factor) d => (sum + .ofNat .double d * factor, factor * tenth))
    (.ofNat .double 0, tenth)).1

/-- The number that the digits add up to in double precision, every step rounded. -/
def accumulated (n : Numeral) : Double :=
  let sign : Double := Binary.ofRatio .double n.negative (Nat.pow 2 Format.double.scale) 1
  let sum := sign * (sumWhole n.whole + sumFraction n.fraction)
  match n.exponent with
  | none => sum
  | some e => sum * Binary.powerOfTen e

end Numeral

/-- The value of an optional sign and digits: whether a minus stands there, and what follows. -/
def splitSign : List Char → Bool × List Char
  | '-' :: rest => (true, rest)
  | '+' :: rest => (false, rest)
  | rest => (false, rest)

/-- The leading decimal digits, and what follows them. -/
def splitDigits (cs : List Char) : List Nat × List Char :=
  ((cs.takeWhile Char.isDigit).map digitValue, cs.dropWhile Char.isDigit)

namespace Numeral

/-- Reads an optional point with digits behind it. -/
def splitFraction : List Char → List Nat × List Char
  | '.' :: rest => splitDigits rest
  | rest => ([], rest)

/-- Reads an exponent, if a whole one stands there. -/
def splitExponent : List Char → Option Int × List Char
  | c :: rest =>
    if c == 'e' || c == 'E' then
      let (negative, behind) := splitSign rest
      match splitDigits behind with
      | ([], _) => (none, c :: rest)
      | (digits, behind) =>
        (some (if negative then -(ofDigits digits : Int) else ofDigits digits), behind)
    else (none, c :: rest)
  | [] => (none, [])

/-- Reads a whole text as a written number; at least one digit, on either side of the point. -/
def ofText? (cs : List Char) : Option Numeral :=
  let (negative, cs) := splitSign cs
  let (whole, cs) := splitDigits cs
  let (fraction, cs) := splitFraction cs
  let (exponent, cs) := splitExponent cs
  if cs.isEmpty && !(whole.isEmpty && fraction.isEmpty) then
    some ⟨negative, whole, fraction, exponent⟩
  else none

end Numeral

namespace Single

/-- Reads a whole text as a number: decimal digits, or a word for what they cannot write. -/
def ofText? (s : String) : Option Single :=
  match Numeral.ofText? s.toList with
  | some n => some (n.nearest .single)
  | none =>
    let (negative, rest) := splitSign s.toList
    let word := rest.map Char.toLower
    if word == "nan".toList then some .nan
    else if word == "inf".toList || word == "infinity".toList then some (.infinite negative)
    else none

/-- The stretch of numbers that round to a count of units, in quarters of a unit. -/
structure Rounding where
  lower : Nat
  upper : Nat
  closed : Bool

/-- The gap below a power of two is half as wide as the one above; the ends belong to the stretch
    if the count is even in its last place. -/
def roundingOf (units : Nat) : Rounding :=
  let step := Nat.pow 2 (Format.single.slack units)
  let isPowerOfTwo := units == Nat.pow 2 units.log2
  let below :=
    if units.log2 + 1 > Format.single.precision && isPowerOfTwo then step else 2 * step
  ⟨4 * units - below, 4 * units + 2 * step, units / step % 2 == 0⟩

/-- Whether `point` lies in the stretch, everything scaled by `num / den`. -/
def Rounding.has (r : Rounding) (point num den : Nat) : Bool :=
  let p := 4 * point * den
  if r.closed then r.lower * num ≤ p && p ≤ r.upper * num else r.lower * num < p && p < r.upper * num

/-- The point of the decimal grid `10 ^ power` that reads back as `units` and lies nearest to it. -/
def onGrid? (units : Nat) (power : Int) : Option Nat :=
  let num := Nat.pow 10 (-power).toNat
  let den := Nat.pow 2 Format.single.scale * Nat.pow 10 power.toNat
  let floor := units * num / den
  let r := roundingOf units
  let low := r.has floor num den
  let high := r.has (floor + 1) num den
  -- half way between the two, the upper one is taken
  if low && (!high || 2 * (units * num % den) < den) then some floor
  else if high then some (floor + 1)
  else none

/-- The coarsest grid at or below `power` that has such a point, with the point. The grid
    `10 ^ -scale` always has one, the number itself. -/
def shortestBelow (units : Nat) (power : Int) : Nat → Nat × Int
  | 0 => (units * Nat.pow 5 Format.single.scale, -Format.single.scale)
  | steps + 1 =>
    match onGrid? units power with
    | some point => (point, power)
    | none => shortestBelow units (power - 1) steps

/-- The fewest decimal digits that read back as the number of units, with their power of ten. -/
def shortest (units : Nat) : Nat × Int :=
  shortestBelow units 38 (38 + Format.single.scale)

/-- Digits in places, without an exponent. -/
def positional (coefficient : Nat) (power : Int) : List Char :=
  let digits := Nat.toDigits 10 coefficient
  if 0 ≤ power then digits ++ List.replicate power.toNat '0'
  else
    let places := (-power).toNat
    if digits.length ≤ places then
      '0' :: '.' :: (List.replicate (places - digits.length) '0' ++ digits)
    else digits.take (digits.length - places) ++ '.' :: digits.drop (digits.length - places)

/-- The digits of a count of units. -/
def digitsOf (units : Nat) : List Char :=
  if units = 0 then ['0']
  else
    let (coefficient, power) := shortest units
    positional coefficient power

/-- The text of a number. -/
def toText : Single → String
  | .nan => "NaN"
  | .infinite negative => if negative then "-inf" else "inf"
  | .finite negative units _ =>
    String.ofList (if negative then '-' :: digitsOf units else digitsOf units)

end Single

end Stylesheet
