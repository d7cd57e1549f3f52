import Mathlib.Algebra.Group.Nat.Defs
import Stylesheet.Number.Decimal

/-!
# The range of a number format

Arithmetic on numbers of a format ends in an infinity where the result is too large, and in zero where it
is too small. What is no number arises in one way only: zero times an infinity (`mul_eq_nan_iff`), as no
infinities of two signs are ever added here. The digits of a numeral never add up to it
(`digitSum_ne_nan`); only its power of ten can bring it in, which is an infinity from `10 ^ 309` on and
zero from `10 ^ -324` down (`powerOfTen_isInfinite_iff`, `powerOfTen_isZero_iff`).
-/

namespace Stylesheet

/-! ## Rounding -/

theorem div_le_divEven (num den : Nat) : num / den ≤ divEven num den := by
  simp only [divEven]
  split
  · exact Nat.le_refl _
  · split <;> omega

namespace Format

variable {f : Format} {num den : Nat}

theorem two_pow_slack_le (hp : 0 < f.precision) (units : Nat) : 2 ^ f.slack units ≤ units + 1 := by
  have hs : f.slack units ≤ units.log2 := by
    simp only [slack]
    omega
  have hle := Nat.pow_le_pow_right Nat.two_pos hs
  rcases Nat.eq_zero_or_pos units with rfl | h
  · exact hle
  · have := Nat.log2_self_le (Nat.ne_of_gt h)
    omega

theorem slack_mono {m n : Nat} (h : m ≤ n) : f.slack m ≤ f.slack n := by
  have hl : m.log2 ≤ n.log2 := by
    rcases Nat.eq_zero_or_pos m with rfl | hm
    · exact Nat.zero_le _
    · exact (Nat.le_log2 (by omega)).2 (Nat.le_trans (Nat.log2_self_le (by omega)) h)
  simp only [slack]
  omega

/-- Rounding goes up by one step at most. -/
theorem nearest_le : f.nearest num den ≤ num / den + 2 ^ f.slack (num / den) := by
  simp only [nearest, Nat.pow_eq]
  generalize f.slack (num / den) = k
  have hq : num / (den * 2 ^ k) * 2 ^ k ≤ num / den := by
    rw [← Nat.div_div_eq_div_mul]
    exact Nat.div_mul_le_self _ _
  calc divEven num (den * 2 ^ k) * 2 ^ k
      ≤ (num / (den * 2 ^ k) + 1) * 2 ^ k := Nat.mul_le_mul_right _ divEven_le
    _ = num / (den * 2 ^ k) * 2 ^ k + 2 ^ k := Nat.succ_mul _ _
    _ ≤ num / den + 2 ^ k := Nat.add_le_add_right hq _

/-- Rounding does not go below a power of two. -/
theorem two_pow_le_nearest (hp : 0 < f.precision) {e : Nat} (h : 2 ^ e ≤ num / den) :
    2 ^ e ≤ f.nearest num den := by
  have hne : num / den ≠ 0 := by
    have := Nat.two_pow_pos e
    omega
  have he : e ≤ (num / den).log2 := (Nat.le_log2 hne).2 h
  have hk : f.slack (num / den) ≤ (num / den).log2 := by
    simp only [slack]
    omega
  have hlow := Nat.log2_self_le hne
  simp only [nearest, Nat.pow_eq]
  generalize f.slack (num / den) = k at hk
  obtain ⟨d, hd⟩ := Nat.exists_eq_add_of_le' hk
  have hdiv : 2 ^ d ≤ num / (den * 2 ^ k) := by
    rw [← Nat.div_div_eq_div_mul, Nat.le_div_iff_mul_le (Nat.two_pow_pos k), ← Nat.pow_add, ← hd]
    exact hlow
  calc 2 ^ e ≤ 2 ^ d * 2 ^ k := by
        rw [← Nat.pow_add, ← hd]
        exact Nat.pow_le_pow_right Nat.two_pos he
    _ ≤ divEven num (den * 2 ^ k) * 2 ^ k :=
        Nat.mul_le_mul_right _ (Nat.le_trans hdiv (div_le_divEven _ _))

/-- A quotient below a half is rounded to zero. -/
theorem nearest_eq_zero (hp : 0 < f.precision) (h : 2 * num < den) : f.nearest num den = 0 := by
  have hq : num / den = 0 := Nat.div_eq_of_lt (by omega)
  have hk : f.slack 0 = 0 := by
    simp only [slack, Nat.log2_zero]
    omega
  simp only [nearest, hq, hk, divEven, Nat.pow_eq, Nat.pow_zero, Nat.mul_one, Nat.zero_add,
    Nat.mod_eq_of_lt (show num < den by omega), if_pos h]

end Format

/-! ## Infinities and zeros -/

namespace Binary

variable {f : Format}

def IsInfinite : Binary f → Prop
  | .infinite _ => True
  | _ => False

def IsZero : Binary f → Prop
  | .finite _ units _ => units = 0
  | _ => False

instance (x : Binary f) : Decidable x.IsZero :=
  match x with
  | .nan => isFalse id
  | .infinite _ => isFalse id
  | .finite _ units _ => inferInstanceAs (Decidable (units = 0))

/-- Numbers that are not negative, the positive infinity too. -/
inductive IsMagnitude : Binary f → Prop
  | infinite : IsMagnitude (.infinite false)
  | finite (units : Nat) (fits : f.Fits units) : IsMagnitude (.finite false units fits)

theorem isFinite_iff (x : Binary f) : x.IsFinite ↔ x ≠ .nan ∧ ¬x.IsInfinite := by
  cases x <;> simp [IsFinite, IsInfinite]

theorem IsMagnitude.ne_nan {x : Binary f} (h : x.IsMagnitude) : x ≠ .nan := by
  rintro rfl
  cases h

section

variable (negative : Bool) (num den : Nat)

theorem ofRatio_of_lt (h : f.nearest num den < 2 ^ f.width) : ofRatio f negative num den =
    .finite negative (f.nearest num den) (f.fits_nearest h) :=
  dif_pos h

theorem ofRatio_of_le (h : 2 ^ f.width ≤ f.nearest num den) :
    ofRatio f negative num den = .infinite negative :=
  dif_neg (Nat.not_lt_of_le h)

theorem ofRatio_ne_nan : ofRatio f negative num den ≠ .nan := by
  unfold ofRatio
  split <;> simp

theorem ofRatio_isMagnitude : (ofRatio f false num den).IsMagnitude := by
  unfold ofRatio
  split
  · exact .finite _ _
  · exact .infinite

end

/-! ## Sums and products -/

theorem add_isMagnitude {x y : Binary f} (hx : x.IsMagnitude) (hy : y.IsMagnitude) :
    (x + y).IsMagnitude := by
  cases hx with
  | infinite => cases hy <;> exact .infinite
  | finite m =>
    cases hy with
    | infinite => exact .infinite
    | finite n => exact ofRatio_isMagnitude (m + n) 1

/-- A product is no number only where a zero meets an infinity. -/
theorem mul_eq_nan_iff {x y : Binary f} (hx : x ≠ .nan) (hy : y ≠ .nan) :
    x * y = .nan ↔ (x.IsZero ∧ y.IsInfinite) ∨ (x.IsInfinite ∧ y.IsZero) := by
  show mul x y = .nan ↔ _
  match x, y, hx, hy with
  | .infinite a, .infinite b, _, _ => simp [mul, IsZero]
  | .infinite a, .finite b n _, _, _ =>
    rw [mul]
    split <;> simp [*, IsZero, IsInfinite]
  | .finite a m _, .infinite b, _, _ =>
    rw [mul]
    split <;> simp [*, IsZero, IsInfinite]
  | .finite a m _, .finite b n _, _, _ => simp [mul, ofRatio_ne_nan, IsInfinite]

theorem mul_isMagnitude {x y : Binary f} (hx : x.IsMagnitude) (hy : y.IsMagnitude)
    (h : x * y ≠ .nan) : (x * y).IsMagnitude := by
  replace h : mul x y ≠ .nan := h
  show (mul x y).IsMagnitude
  cases hx with
  | infinite =>
    cases hy with
    | infinite => exact .infinite
    | finite n =>
      rw [mul] at h ⊢
      split at h
      · contradiction
      · rw [if_neg ‹_›]
        exact .infinite
  | finite m =>
    cases hy with
    | infinite =>
      rw [mul] at h ⊢
      split at h
      · contradiction
      · rw [if_neg ‹_›]
        exact .infinite
    | finite n => exact ofRatio_isMagnitude _ _

theorem exists_units {x : Binary f} (hx : x.IsFinite) (hm : x.IsMagnitude) :
    ∃ units h, x = .finite false units h := by
  cases hm with
  | infinite => exact hx.elim
  | finite units h => exact ⟨units, h, rfl⟩

/-- Whether a number is positive and at most a quarter. -/
def isQuarter : Binary f → Bool
  | .finite false units _ => 4 * units ≤ 2 ^ f.scale
  | _ => false

theorem exists_of_isQuarter {x : Binary f} (h : x.isQuarter = true) :
    ∃ units h, x = .finite false units h ∧ 4 * units ≤ 2 ^ f.scale := by
  match x, h with
  | .finite false units hu, h => exact ⟨units, hu, rfl, of_decide_eq_true h⟩

/-- A quarter of a number is no infinity. -/
theorem mul_isQuarter (hp : 0 < f.precision) (hw : 2 ≤ f.width) {x y : Binary f} (hx : x.IsFinite)
    (hm : x.IsMagnitude) (hy : y.isQuarter = true) : (x * y).IsFinite ∧ (x * y).IsMagnitude := by
  obtain ⟨m, h, rfl⟩ := exists_units hx hm
  obtain ⟨n, hn, rfl, hq⟩ := exists_of_isQuarter hy
  have hdiv : m * n / 2 ^ f.scale ≤ m / 4 := by
    rw [Nat.le_div_iff_mul_le (by decide), Nat.mul_comm]
    calc 4 * (m * n / 2 ^ f.scale) ≤ 4 * (m * n) / 2 ^ f.scale := Nat.mul_div_le_mul_div_assoc _ _ _
      _ = m * (4 * n) / 2 ^ f.scale := by rw [Nat.mul_left_comm]
      _ ≤ m * 2 ^ f.scale / 2 ^ f.scale := Nat.div_le_div_right (Nat.mul_le_mul_left m hq)
      _ = m := Nat.mul_div_cancel m (Nat.two_pow_pos _)
  have hlt : f.nearest (m * n) (2 ^ f.scale) < 2 ^ f.width := by
    have hle : f.nearest (m * n) (2 ^ f.scale) ≤ _ := Format.nearest_le
    have hslack := Format.two_pow_slack_le hp (m * n / 2 ^ f.scale)
    have hbound : m < 2 ^ f.width := h.1
    have hwidth : 2 ^ 2 ≤ 2 ^ f.width := Nat.pow_le_pow_right Nat.two_pos hw
    omega
  have e : (.finite false m h * .finite false n hn : Binary f) =
      .finite false _ (f.fits_nearest hlt) := ofRatio_of_lt _ _ _ hlt
  rw [e]
  exact ⟨trivial, .finite _ _⟩

/-! ## Powers of ten -/

theorem ten_pow_le {m n : Nat} (h : m ≤ n) : 10 ^ m ≤ 10 ^ n :=
  Nat.pow_le_pow_right (by decide) h

/-- The number nearest to a power of ten, where it is neither too large nor too small to be computed. -/
theorem ofDecimal_one {e : Int} (hl : e < 700) (hs : -360 < e) : ofDecimal .double false 1 e =
    if 0 ≤ e then ofRatio .double false (10 ^ e.toNat * 2 ^ Format.double.scale) 1
    else ofRatio .double false (2 ^ Format.double.scale) (10 ^ (-e).toNat) := by
  have hd : (Nat.toDigits 10 1).length = 1 := rfl
  simp only [ofDecimal, hd]
  rw [if_neg Nat.one_ne_zero, if_neg (by simp only [Format.double]; omega),
    if_neg (by simp only [Format.double]; omega)]
  simp only [Nat.one_mul, Nat.pow_eq]

/-- Where powers of ten leave the range of doubles, above and below, and that those between do not. -/
theorem double_bounds :
    (2 ^ Format.double.width ≤ 10 ^ 309 * 2 ^ Format.double.scale ∧
      2 * 2 ^ Format.double.scale < 10 ^ 324) ∧
    (10 ^ 308 * 2 ^ Format.double.scale +
        2 ^ Format.double.slack (10 ^ 308 * 2 ^ Format.double.scale) < 2 ^ Format.double.width ∧
      10 ^ 323 ≤ 2 ^ Format.double.scale) ∧
    2 ^ Format.double.scale + 2 ^ Format.double.slack (2 ^ Format.double.scale) <
      2 ^ Format.double.width := by
  decide +kernel

theorem ofDecimal_one_isInfinite {e : Int} (h : 309 ≤ e) :
    (ofDecimal .double false 1 e).IsInfinite := by
  by_cases hl : e < 700
  · have he : 309 ≤ e.toNat := by omega
    rw [ofDecimal_one hl (by omega), if_pos (by omega), ofRatio_of_le]
    · trivial
    · apply Format.two_pow_le_nearest (by decide)
      rw [Nat.div_one]
      calc 2 ^ Format.double.width ≤ 10 ^ 309 * 2 ^ Format.double.scale := double_bounds.1.1
        _ ≤ 10 ^ e.toNat * 2 ^ Format.double.scale := Nat.mul_le_mul_right _ (ten_pow_le he)
  · have hd : (Nat.toDigits 10 1).length = 1 := rfl
    simp only [ofDecimal, hd]
    rw [if_neg Nat.one_ne_zero, if_pos (by simp only [Format.double]; omega)]
    trivial

theorem ofDecimal_one_isZero {e : Int} (h : e ≤ -324) : (ofDecimal .double false 1 e).IsZero := by
  by_cases hs : -360 < e
  · have hn : Format.double.nearest (2 ^ Format.double.scale) (10 ^ (-e).toNat) = 0 := by
      apply Format.nearest_eq_zero (by decide)
      calc 2 * 2 ^ Format.double.scale < 10 ^ 324 := double_bounds.1.2
        _ ≤ 10 ^ (-e).toNat := ten_pow_le (by omega)
    rw [ofDecimal_one (by omega) hs, if_neg (by omega), ofRatio_of_lt _ _ _ (hn ▸ Nat.two_pow_pos _)]
    exact hn
  · have hd : (Nat.toDigits 10 1).length = 1 := rfl
    simp only [ofDecimal, hd]
    rw [if_neg Nat.one_ne_zero, if_neg (by simp only [Format.double]; omega),
      if_pos (by simp only [Format.double]; omega)]
    exact rfl

/-- What a quotient from one up to `b` is rounded to is neither an infinity nor zero. -/
theorem ofRatio_between {f : Format} (hp : 0 < f.precision) {num den b : Nat} (hlow : 1 ≤ num / den)
    (hhigh : num / den ≤ b) (hb : b + 2 ^ f.slack b < 2 ^ f.width) :
    (ofRatio f false num den).IsFinite ∧ ¬(ofRatio f false num den).IsZero := by
  have hpos : 2 ^ 0 ≤ f.nearest num den := Format.two_pow_le_nearest hp hlow
  have hlt : f.nearest num den < 2 ^ f.width := calc
    f.nearest num den ≤ num / den + 2 ^ f.slack (num / den) := Format.nearest_le
    _ ≤ b + 2 ^ f.slack b :=
        Nat.add_le_add hhigh (Nat.pow_le_pow_right Nat.two_pos (Format.slack_mono hhigh))
    _ < 2 ^ f.width := hb
  rw [ofRatio_of_lt _ _ _ hlt]
  refine ⟨trivial, fun h => ?_⟩
  rw [show f.nearest num den = 0 from h] at hpos
  contradiction

theorem ofDecimal_one_between {e : Int} (hlow : -323 ≤ e) (hhigh : e ≤ 308) :
    (ofDecimal .double false 1 e).IsFinite ∧ ¬(ofDecimal .double false 1 e).IsZero := by
  obtain ⟨-, ⟨hlarge, hsmall⟩, hone⟩ := double_bounds
  rw [ofDecimal_one (by omega) (by omega)]
  split
  · apply ofRatio_between (b := 10 ^ 308 * 2 ^ Format.double.scale) (by decide)
    · rw [Nat.div_one]
      exact Nat.mul_pos (Nat.pow_pos (by decide)) (Nat.two_pow_pos _)
    · have he : e.toNat ≤ 308 := by omega
      rw [Nat.div_one]
      exact Nat.mul_le_mul (ten_pow_le he) (Nat.le_refl _)
    · exact hlarge
  · apply ofRatio_between (b := 2 ^ Format.double.scale) (by decide)
    · rw [Nat.le_div_iff_mul_le (Nat.pow_pos (by decide)), Nat.one_mul]
      calc 10 ^ (-e).toNat ≤ 10 ^ 323 := ten_pow_le (by omega)
        _ ≤ 2 ^ Format.double.scale := hsmall
    · exact Nat.div_le_self _ _
    · exact hone

theorem powerOfTen_of_large {e : Int} (h : 309 ≤ e) : (powerOfTen e).IsInfinite := by
  have hn : e ∉ raisedExponents := by
    simp only [raisedExponents, List.mem_cons, List.not_mem_nil, or_false]
    omega
  rw [powerOfTen, if_neg hn]
  exact ofDecimal_one_isInfinite h

theorem powerOfTen_of_small {e : Int} (h : e ≤ -324) : (powerOfTen e).IsZero := by
  have hn : e ∉ raisedExponents := by
    simp only [raisedExponents, List.mem_cons, List.not_mem_nil, or_false]
    omega
  rw [powerOfTen, if_neg hn]
  exact ofDecimal_one_isZero h

theorem powerOfTen_between {e : Int} (hlow : -323 ≤ e) (hhigh : e ≤ 308) :
    (powerOfTen e).IsFinite ∧ ¬(powerOfTen e).IsZero := by
  by_cases hr : e ∈ raisedExponents
  · have hraised : ∀ e ∈ raisedExponents, (powerOfTen e).IsFinite ∧ ¬(powerOfTen e).IsZero := by
      decide +kernel
    exact hraised e hr
  · rw [powerOfTen, if_neg hr]
    exact ofDecimal_one_between hlow hhigh

theorem powerOfTen_isInfinite_iff (e : Int) : (powerOfTen e).IsInfinite ↔ 309 ≤ e := by
  refine ⟨fun h => Int.not_lt.1 fun hl => ?_, powerOfTen_of_large⟩
  by_cases hs : e ≤ -324
  · have hz := powerOfTen_of_small hs
    generalize powerOfTen e = x at h hz
    cases x <;> contradiction
  · exact ((isFinite_iff _).1 (powerOfTen_between (by omega) (by omega)).1).2 h

theorem powerOfTen_isZero_iff (e : Int) : (powerOfTen e).IsZero ↔ e ≤ -324 := by
  refine ⟨fun h => Int.not_lt.1 fun hs => ?_, powerOfTen_of_small⟩
  by_cases hl : 309 ≤ e
  · have hi := powerOfTen_of_large hl
    generalize powerOfTen e = x at h hi
    cases x <;> contradiction
  · exact (powerOfTen_between (by omega) (by omega)).2 h

theorem powerOfTen_ne_nan (e : Int) : powerOfTen e ≠ .nan := by
  intro h
  by_cases hl : 309 ≤ e
  · have hi := powerOfTen_of_large hl
    rw [h] at hi
    exact hi
  · by_cases hs : e ≤ -324
    · have hz := powerOfTen_of_small hs
      rw [h] at hz
      exact hz
    · exact ((isFinite_iff _).1 (powerOfTen_between (by omega) (by omega)).1).1 h

/-! ## Other formats, and the finite numbers -/

theorem convert_eq_nan_iff (g : Format) (x : Binary f) : x.convert g = .nan ↔ x = .nan := by
  cases x with
  | nan => exact ⟨fun _ => rfl, fun _ => rfl⟩
  | infinite => simp [convert]
  | finite => simp [convert, ofRatio_ne_nan]

/-- Every number is moved to a finite one; only what is no number stays as it is. -/
theorem saturate_isFinite_iff (x : Single) : x.saturate.IsFinite ↔ x ≠ .nan := by
  cases x <;> simp [saturate, greatest, IsFinite]

theorem saturate_eq_nan_iff (x : Single) : x.saturate = .nan ↔ x = .nan := by
  cases x <;> simp [saturate, greatest]

theorem ofDecimal_ne_nan (f : Format) (negative : Bool) (coefficient : Nat) (power : Int) :
    ofDecimal f negative coefficient power ≠ .nan := by
  unfold ofDecimal zero
  dsimp only
  repeat' split
  all_goals first
    | exact ofRatio_ne_nan _ _ _
    | simp

/-! ## Sums of digits -/

theorem ofNat_isMagnitude (n : Nat) : (ofNat f n).IsMagnitude := ofRatio_isMagnitude _ _

/-- A finite number other than zero makes no product undefined. -/
theorem mul_ne_nan {x y : Binary f} (hx : x ≠ .nan) (hy : y.IsFinite ∧ ¬y.IsZero) : x * y ≠ .nan := by
  obtain ⟨hn, hi⟩ := (isFinite_iff y).1 hy.1
  rw [Ne, mul_eq_nan_iff hx hn]
  rintro (⟨-, h⟩ | ⟨-, h⟩)
  · exact hi h
  · exact hy.2 h

theorem foldl_whole_isMagnitude {ten : Binary f} (ht : ten.IsFinite ∧ ¬ten.IsZero)
    (hm : ten.IsMagnitude) (digits : List Nat) {sum : Binary f} (hs : sum.IsMagnitude) :
    (digits.foldl (fun sum d => sum * ten + ofNat f d) sum).IsMagnitude := by
  induction digits generalizing sum with
  | nil => exact hs
  | cons d digits ih =>
    have hmul := mul_isMagnitude hs hm (mul_ne_nan hs.ne_nan ht)
    exact ih (add_isMagnitude hmul (ofNat_isMagnitude d))

/-- One digit behind the point: its factor may vanish, but it is never infinite. -/
theorem add_mul_isMagnitude {sum factor x : Binary f} (hs : sum.IsMagnitude)
    (hf : factor.IsFinite ∧ factor.IsMagnitude) (hx : x ≠ .infinite false) (hm : x.IsMagnitude) :
    (sum + x * factor).IsMagnitude := by
  have hn : x * factor ≠ .nan := by
    rw [Ne, mul_eq_nan_iff hm.ne_nan hf.2.ne_nan]
    rintro (⟨-, hi⟩ | ⟨hi, -⟩)
    · exact ((isFinite_iff _).1 hf.1).2 hi
    · cases hm with
      | infinite => exact hx rfl
      | finite => exact hi
  exact add_isMagnitude hs (mul_isMagnitude hm hf.2 hn)

theorem foldl_fraction_isMagnitude (hp : 0 < f.precision) (hw : 2 ≤ f.width) {tenth : Binary f}
    (hq : tenth.isQuarter = true) {base : Nat} (hb : ∀ d < base, ofNat f d ≠ .infinite false)
    {digits : List Nat} (hd : ∀ d ∈ digits, d < base) {sum : Binary f} (hs : sum.IsMagnitude) :
    (digits.foldl (fun (sum, factor) d => (sum + ofNat f d * factor, factor * tenth))
      (sum, tenth)).1.IsMagnitude := by
  have run (factor : Binary f) (hf : factor.IsFinite ∧ factor.IsMagnitude) :
      (digits.foldl (fun (sum, factor) d => (sum + ofNat f d * factor, factor * tenth))
        (sum, factor)).1.IsMagnitude := by
    induction digits generalizing sum factor with
    | nil => exact hs
    | cons d digits ih =>
      obtain ⟨hdigit, hrest⟩ := List.forall_mem_cons.1 hd
      exact ih hrest (add_mul_isMagnitude hs hf (hb d hdigit) (ofNat_isMagnitude d)) _
        (mul_isQuarter hp hw hf.1 hf.2 hq)
  obtain ⟨units, h, rfl, -⟩ := exists_of_isQuarter hq
  exact run _ ⟨trivial, .finite units h⟩

end Binary

/-! ## Numerals -/

namespace Numeral

open Binary

/-- What digits are added up with: ten is finite and not zero, one tenth is not rounded to more than a
    quarter, and no digit is infinite. -/
theorem digit_constants :
    ((Binary.ofNat .double 10).IsFinite ∧ ¬(Binary.ofNat .double 10).IsZero) ∧
      tenth.isQuarter = true ∧ ∀ d < 10, Binary.ofNat .double d ≠ .infinite false := by
  decide +kernel

theorem sumWhole_isMagnitude (digits : List Nat) : (sumWhole digits).IsMagnitude := by
  unfold sumWhole
  exact foldl_whole_isMagnitude digit_constants.1 (ofNat_isMagnitude 10) digits (ofNat_isMagnitude 0)

theorem sumFraction_isMagnitude {digits : List Nat} (hd : ∀ d ∈ digits, d < 10) :
    (sumFraction digits).IsMagnitude := by
  obtain ⟨-, hquarter, hfinite⟩ := digit_constants
  unfold sumFraction
  exact foldl_fraction_isMagnitude (by decide) (by decide) hquarter hfinite hd (ofNat_isMagnitude 0)

/-- What the digits of a numeral add up to, with its sign and without its power of ten. -/
def digitSum (n : Numeral) : Double := accumulated { n with exponent := none }

/-- Numerals whose digits add up to zero, with an infinite power of ten behind them, or to an infinity,
    with a power of ten that is zero. -/
def IsIndeterminate (n : Numeral) : Prop :=
  ∃ e ∈ n.exponent, (n.digitSum.IsZero ∧ 309 ≤ e) ∨ (n.digitSum.IsInfinite ∧ e ≤ -324)

theorem sign_isFinite (negative : Bool) :
    (ofRatio .double negative (Nat.pow 2 Format.double.scale) 1).IsFinite ∧
      ¬(ofRatio .double negative (Nat.pow 2 Format.double.scale) 1).IsZero := by
  revert negative
  decide +kernel

/-- A product of a finite number other than zero and a magnitude. -/
theorem mul_magnitude_ne_nan {f : Format} {x y : Binary f} (hx : x.IsFinite ∧ ¬x.IsZero)
    (hy : y.IsMagnitude) : x * y ≠ .nan := by
  obtain ⟨hn, hi⟩ := (isFinite_iff x).1 hx.1
  rw [Ne, mul_eq_nan_iff hn hy.ne_nan]
  rintro (⟨h, -⟩ | ⟨h, -⟩)
  · exact hx.2 h
  · exact hi h

section

variable {n : Numeral}

/-- Digits add up to a number, or to an infinity. -/
theorem digitSum_ne_nan (h : ∀ d ∈ n.fraction, d < 10) : n.digitSum ≠ .nan :=
  mul_magnitude_ne_nan (sign_isFinite n.negative)
    (add_isMagnitude (sumWhole_isMagnitude n.whole) (sumFraction_isMagnitude h))

theorem accumulated_eq_nan_iff (h : ∀ d ∈ n.fraction, d < 10) :
    n.accumulated = .nan ↔ n.IsIndeterminate := by
  cases he : n.exponent with
  | none =>
    have e : n.accumulated = n.digitSum := by
      simp only [digitSum, accumulated, he]
    simp [e, digitSum_ne_nan h, IsIndeterminate, he]
  | some power =>
    have e : n.accumulated = n.digitSum * powerOfTen power := by
      simp only [digitSum, accumulated, he]
    rw [e, mul_eq_nan_iff (digitSum_ne_nan h) (powerOfTen_ne_nan power), powerOfTen_isInfinite_iff,
      powerOfTen_isZero_iff]
    simp [IsIndeterminate, he]

end

end Numeral

end Stylesheet
