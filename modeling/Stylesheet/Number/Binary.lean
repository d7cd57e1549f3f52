/-!
# Binary floating-point numbers

Every finite number of a binary format is a whole multiple of one unit, its least positive number, so
a finite number is kept as a sign and a count of units. `Format.Fits` says which counts a format
has: those with at most `precision` significant bits, below `2 ^ width`. `Format.nearest` is the
rounding of a quotient to such a count, half to even; all arithmetic is exact on units and then
rounded once. A result of `2 ^ width` units or more is an infinity.
-/

namespace Stylesheet

/-- A binary format. Its unit is `2 ^ -scale`. -/
structure Format where
  precision : Nat
  scale : Nat
  width : Nat
deriving DecidableEq

namespace Format

/-- 24 significant bits, least number `2 ^ -149`, all numbers below `2 ^ 128`. -/
def single : Format := ⟨24, 149, 277⟩

/-- 53 significant bits, least number `2 ^ -1074`, all numbers below `2 ^ 1024`. -/
def double : Format := ⟨53, 1074, 2098⟩

/-- The counts of units that the format has. -/
def Fits (f : Format) (units : Nat) : Prop :=
  units < Nat.pow 2 f.width ∧ ∃ m k, m ≤ Nat.pow 2 f.precision ∧ units = m * Nat.pow 2 k

/-- The number of low bits that a count near `units` has to leave zero. -/
def slack (f : Format) (units : Nat) : Nat := units.log2 + 1 - f.precision

end Format

/-- `num / den` to the nearest whole number, a half to the even neighbour. -/
def divEven (num den : Nat) : Nat :=
  let q := num / den
  let r := num % den
  if 2 * r < den then q else if den < 2 * r then q + 1 else q + q % 2

namespace Format

/-- The count of units nearest to `num / den` units, without a bound above. -/
def nearest (f : Format) (num den : Nat) : Nat :=
  let k := f.slack (num / den)
  divEven num (den * Nat.pow 2 k) * Nat.pow 2 k

end Format

theorem divEven_le {num den : Nat} : divEven num den ≤ num / den + 1 := by
  simp only [divEven]
  split
  · omega
  · split <;> omega

namespace Format

theorem div_slack_lt (f : Format) (num den : Nat) :
    num / (den * Nat.pow 2 (f.slack (num / den))) < Nat.pow 2 f.precision := by
  simp only [Nat.pow_eq]
  rw [← Nat.div_div_eq_div_mul, Nat.div_lt_iff_lt_mul (Nat.two_pow_pos _), ← Nat.pow_add]
  refine Nat.lt_of_lt_of_le Nat.lt_log2_self (Nat.pow_le_pow_right (by omega) ?_)
  simp only [slack]
  omega

/-- Rounding gives a count that the format has, if it is not too large. -/
theorem fits_nearest (f : Format) {num den : Nat} (h : f.nearest num den < Nat.pow 2 f.width) :
    f.Fits (f.nearest num den) :=
  ⟨h, divEven num (den * Nat.pow 2 (f.slack (num / den))), f.slack (num / den),
    Nat.le_trans divEven_le (f.div_slack_lt num den), rfl⟩

theorem fits_zero (f : Format) : f.Fits 0 :=
  ⟨Nat.two_pow_pos _, 0, 0, Nat.zero_le _, rfl⟩

/-- The largest count: all significant bits set, under the bound. -/
def largest (f : Format) : Nat :=
  (Nat.pow 2 f.precision - 1) * Nat.pow 2 (f.width - f.precision)

theorem fits_largest (f : Format) (h : f.precision ≤ f.width) : f.Fits f.largest := by
  refine ⟨?_, Nat.pow 2 f.precision - 1, f.width - f.precision, Nat.sub_le _ _, rfl⟩
  have e : Nat.pow 2 f.width = Nat.pow 2 f.precision * Nat.pow 2 (f.width - f.precision) := by
    simp only [Nat.pow_eq]
    rw [← Nat.pow_add, Nat.add_sub_cancel' h]
  have p : 0 < Nat.pow 2 f.precision := Nat.two_pow_pos f.precision
  rw [largest, e]
  exact Nat.mul_lt_mul_of_pos_right (by omega) (Nat.two_pow_pos _)

end Format

/-- A number of a binary format. Zero has two signs. -/
inductive Binary (f : Format) where
  | nan
  | infinite (negative : Bool)
  | finite (negative : Bool) (units : Nat) (fits : f.Fits units)
deriving DecidableEq

/-- The numbers that a stylesheet holds. -/
abbrev Single := Binary .single

/-- The numbers that the digits of a stylesheet are added up in. -/
abbrev Double := Binary .double

namespace Binary

variable {f : Format}

instance : Inhabited (Binary f) := ⟨.nan⟩

def zero (f : Format) (negative : Bool) : Binary f := .finite negative 0 f.fits_zero

/-- The number nearest to `num / den` units. -/
def ofRatio (f : Format) (negative : Bool) (num den : Nat) : Binary f :=
  if h : f.nearest num den < Nat.pow 2 f.width then
    .finite negative (f.nearest num den) (f.fits_nearest h)
  else .infinite negative

/-- The whole number `n`, rounded. -/
def ofNat (f : Format) (n : Nat) : Binary f := ofRatio f false (n * Nat.pow 2 f.scale) 1

def IsFinite : Binary f → Prop
  | .finite .. => True
  | _ => False

instance (x : Binary f) : Decidable x.IsFinite :=
  match x with
  | .nan => isFalse id
  | .infinite _ => isFalse id
  | .finite .. => isTrue trivial

/-- Equality of numbers: the two zeros are equal, and what is no number equals nothing. -/
def equal : Binary f → Binary f → Bool
  | .infinite a, .infinite b => a == b
  | .finite a m _, .finite b n _ => m == n && (a == b || m == 0)
  | _, _ => false

/-- The sum of two finite numbers in units, with its sign. An exact zero is positive unless both
    are negative. -/
def addFinite (f : Format) (a : Bool) (m : Nat) (b : Bool) (n : Nat) : Binary f :=
  if a == b then ofRatio f a (m + n) 1
  else if m = n then zero f false
  else if n < m then ofRatio f a (m - n) 1
  else ofRatio f b (n - m) 1

def add : Binary f → Binary f → Binary f
  | .nan, _ => .nan
  | _, .nan => .nan
  | .infinite a, .infinite b => if a == b then .infinite a else .nan
  | .infinite a, .finite .. => .infinite a
  | .finite .., .infinite b => .infinite b
  | .finite a m _, .finite b n _ => addFinite f a m b n

def mul : Binary f → Binary f → Binary f
  | .nan, _ => .nan
  | _, .nan => .nan
  | .infinite a, .infinite b => .infinite (a != b)
  | .infinite a, .finite b n _ => if n = 0 then .nan else .infinite (a != b)
  | .finite a m _, .infinite b => if m = 0 then .nan else .infinite (a != b)
  | .finite a m _, .finite b n _ => ofRatio f (a != b) (m * n) (Nat.pow 2 f.scale)

instance : Add (Binary f) := ⟨add⟩
instance : Mul (Binary f) := ⟨mul⟩

/-- The next number further from zero. -/
def outward : Binary f → Binary f
  | .nan => .nan
  | .infinite negative => .infinite negative
  | .finite negative units _ => ofRatio f negative (units + Nat.pow 2 (f.slack units)) 1

/-- The same number in another format, rounded. -/
def convert (g : Format) : Binary f → Binary g
  | .nan => .nan
  | .infinite a => .infinite a
  | .finite a m _ => ofRatio g a (m * Nat.pow 2 g.scale) (Nat.pow 2 f.scale)

/-- The number furthest from zero. -/
def greatest (negative : Bool) : Single :=
  .finite negative Format.single.largest (Format.single.fits_largest (by decide))

/-- The nearest finite number; what is no number stays as it is. -/
def saturate : Single → Single
  | .infinite negative => greatest negative
  | x => x

/-- The magnitude in whole units of one, a half rounded up. -/
def roundedMagnitude (f : Format) (units : Nat) : Nat :=
  (2 * units + Nat.pow 2 f.scale) / Nat.pow 2 (f.scale + 1)

/-- The nearest whole number from 0 to 255, a half rounded up; 0 for what is no number. -/
def toByte : Binary f → UInt8
  | .nan => 0
  | .infinite negative => if negative then 0 else 255
  | .finite negative units _ => if negative then 0 else .ofNat (min (roundedMagnitude f units) 255)

/-- The number moved into the range from 0 to 1. -/
def clampUnit : Binary f → Binary f
  | .nan => .nan
  | .infinite negative => if negative then zero f false else ofNat f 1
  | .finite negative units h =>
    if negative then zero f false
    else if Nat.pow 2 f.scale < units then ofNat f 1
    else .finite negative units h

end Binary

end Stylesheet
