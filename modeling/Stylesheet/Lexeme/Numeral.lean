import Stylesheet.Lexeme.Name
import Stylesheet.Token

/-!
# Numbers in a stylesheet

An optional sign, digits, a point with digits behind it, and an exponent; then a percent sign, a
unit, or nothing. A number and a dimension hold the sum that `Numeral.accumulated` comes to, a
percentage the nearest number; all three are kept within the finite numbers.
-/

namespace Stylesheet

def startsDigit : List Char → Bool
  | [] => false
  | c :: _ => c.isDigit

/-- A digit, or a point and a digit. -/
def startsMagnitude (cs : List Char) : Bool :=
  startsDigit cs || (cs.head? == some '.' && startsDigit cs.tail)

/-- Reads a point with digits behind it, if one stands there. -/
def fractionDigits (cs : List Char) : List Nat × List Char :=
  if cs.head? == some '.' && startsDigit cs.tail then splitDigits cs.tail else ([], cs)

/-- Reads a number from the front of a text. -/
def numeral (cs : List Char) : Numeral × List Char :=
  let (negative, digits) := splitSign cs
  let (whole, behind) := splitDigits digits
  let (fraction, behind) := fractionDigits behind
  let (exponent, behind) := Numeral.splitExponent behind
  (⟨negative, whole, fraction, exponent⟩, behind)

/-- A number with what it counts. -/
def numericToken (cs : List Char) : TokenKind × List Char :=
  let (n, behind) := numeral cs
  if behind.head? == some '%' then (.percentage (n.nearest .single).saturate, behind.tail)
  else
    let value : Single := (n.accumulated.convert .single).saturate
    if beginsName behind then
      let (unit, behind) := name behind
      (.dimension value (String.ofList unit), behind)
    else (.number value, behind)

theorem splitSign_suffix (cs : List Char) : (splitSign cs).2 <:+ cs := by
  unfold splitSign
  split
  · exact List.suffix_cons _ _
  · exact List.suffix_cons _ _
  · exact List.suffix_refl _

theorem splitDigits_suffix (cs : List Char) : (splitDigits cs).2 <:+ cs :=
  List.dropWhile_suffix _

theorem fractionDigits_suffix (cs : List Char) : (fractionDigits cs).2 <:+ cs := by
  unfold fractionDigits
  split
  · exact (splitDigits_suffix _).trans (List.tail_suffix cs)
  · exact List.suffix_refl _

theorem splitExponent_suffix (cs : List Char) : (Numeral.splitExponent cs).2 <:+ cs := by
  unfold Numeral.splitExponent
  split
  · rename_i c rest
    split
    · have h := (splitDigits_suffix (splitSign rest).2).trans (splitSign_suffix rest)
      simp only
      split
      · exact List.suffix_refl _
      · rename_i e
        rw [e] at h
        exact h.trans (List.suffix_cons c rest)
    · exact List.suffix_refl _
  · exact List.suffix_refl _

/-- Where a number begins, its first character is read. -/
theorem numeral_suffix_tail {c : Char} {rest : List Char}
    (h : startsMagnitude (splitSign (c :: rest)).2 = true) : (numeral (c :: rest)).2 <:+ rest := by
  have step : (numeral (c :: rest)).2 <:+
      (fractionDigits (splitDigits (splitSign (c :: rest)).2).2).2 := splitExponent_suffix _
  refine step.trans ?_
  by_cases hs : (splitSign (c :: rest)).2 = rest
  · rw [hs]
    exact (fractionDigits_suffix _).trans (splitDigits_suffix rest)
  · have e : (splitSign (c :: rest)).2 = c :: rest := by
      unfold splitSign at hs ⊢
      split at hs <;> simp_all
    rw [e] at h ⊢
    by_cases hd : c.isDigit = true
    · refine (fractionDigits_suffix _).trans ?_
      simp only [splitDigits, List.dropWhile_cons, hd, ↓reduceIte]
      exact List.dropWhile_suffix _
    · have hp : (c = '.') ∧ startsDigit rest = true := by
        simpa [startsMagnitude, startsDigit, hd] using h
      have hb : (splitDigits (c :: rest)).2 = c :: rest := by
        simp [splitDigits, hd]
      rw [hb, hp.1]
      simp only [fractionDigits, List.head?_cons, beq_self_eq_true, List.tail_cons, hp.2,
        Bool.and_self, ↓reduceIte]
      exact splitDigits_suffix rest

theorem numericToken_suffix_numeral (cs : List Char) : (numericToken cs).2 <:+ (numeral cs).2 := by
  simp only [numericToken]
  split
  · exact List.tail_suffix _
  · split
    · exact name_suffix _
    · exact List.suffix_refl _

end Stylesheet
