import Stylesheet.Lexeme.Numeral
import Stylesheet.Proofs.Written.Name
import Stylesheet.Value

/-!
# Written numbers read back

The text of a finite number is digits with at most one point between them (`IsDecimal`), so a number
is read off it as far as it goes and no further (`numeral_toText`): what follows a written number is a
separator, a percent sign or a unit, and none of these goes on with the number (`EndsNumber`). That
the digits themselves stand for the number is `Single.ReadsBack`.
-/

namespace Stylesheet

/-- A text that does not go on with a number that stands in front of it. -/
structure EndsNumber (rest : List Char) : Prop where
  noDigit : startsDigit rest = false
  noPoint : rest.head? ≠ some '.'
  noExponent : Numeral.splitExponent rest = (none, rest)

/-- Digits, or digits with a point between them. -/
inductive IsDecimal : List Char → Prop
  | whole {ds : List Char} (hne : ds ≠ []) (hd : ∀ c ∈ ds, c.isDigit = true) : IsDecimal ds
  | point {ds es : List Char} (hne : ds ≠ []) (hd : ∀ c ∈ ds, c.isDigit = true) (hne' : es ≠ [])
    (he : ∀ c ∈ es, c.isDigit = true) : IsDecimal (ds ++ '.' :: es)

/-! ## The digits of a number -/

theorem isDigit_of_mem_toDigits {n : Nat} {c : Char} (h : c ∈ Nat.toDigits 10 n) :
    c.isDigit = true :=
  Nat.isDigit_of_mem_toDigits (by decide) (by decide) h

theorem isDecimal_positional (coefficient : Nat) (power : Int) :
    IsDecimal (Single.positional coefficient power) := by
  have hd : ∀ c ∈ Nat.toDigits 10 coefficient, c.isDigit = true := fun c => isDigit_of_mem_toDigits
  have hne : 0 < (Nat.toDigits 10 coefficient).length := Nat.length_toDigits_pos
  simp only [Single.positional]
  generalize Nat.toDigits 10 coefficient = ds at hd hne
  have hz (n : Nat) : ∀ c ∈ List.replicate n '0', c.isDigit = true := by
    intro c hc
    rw [List.eq_of_mem_replicate hc]
    rfl
  -- zeros behind the digits, zeros in front of them, or the point between them
  split
  · refine .whole (List.append_ne_nil_of_left_ne_nil (List.ne_nil_of_length_pos hne) _) ?_
    intro c hc
    exact (List.mem_append.1 hc).elim (hd c) (hz _ c)
  · split
    · show IsDecimal (['0'] ++ '.' :: _)
      refine .point (by simp) (by simp)
        (List.append_ne_nil_of_right_ne_nil _ (List.ne_nil_of_length_pos hne)) ?_
      intro c hc
      exact (List.mem_append.1 hc).elim (hz _ c) (hd c)
    · refine .point (List.ne_nil_of_length_pos ?_) (fun c hc => hd c (List.mem_of_mem_take hc))
        (List.ne_nil_of_length_pos ?_) (fun c hc => hd c (List.mem_of_mem_drop hc))
      · rw [List.length_take]
        omega
      · rw [List.length_drop]
        omega

theorem isDecimal_digitsOf (units : Nat) : IsDecimal (Single.digitsOf units) := by
  unfold Single.digitsOf
  split
  · exact .whole (by simp) (by simp)
  · exact isDecimal_positional _ _

/-- A written number is digits behind an optional minus. -/
theorem toText_finite {x : Single} (hx : x.IsFinite) :
    ∃ ds, IsDecimal ds ∧ (x.toText.toList = ds ∨ x.toText.toList = '-' :: ds) := by
  match x, hx with
  | .finite negative units _, _ =>
    refine ⟨Single.digitsOf units, isDecimal_digitsOf units, ?_⟩
    cases negative with
    | false => exact Or.inl (by simp [Single.toText])
    | true => exact Or.inr (by simp [Single.toText])

namespace IsDecimal

theorem exists_cons {ds : List Char} (h : IsDecimal ds) :
    ∃ c cs, ds = c :: cs ∧ c.isDigit = true := by
  cases h with
  | whole hne hd =>
    obtain ⟨c, cs, rfl⟩ := List.exists_cons_of_ne_nil hne
    exact ⟨c, cs, rfl, hd c List.mem_cons_self⟩
  | point hne hd _ _ =>
    obtain ⟨c, cs, rfl⟩ := List.exists_cons_of_ne_nil hne
    exact ⟨c, _, rfl, hd c List.mem_cons_self⟩

end IsDecimal

/-! ## Reading them -/

theorem splitDigits_append {ds rest : List Char} (hd : ∀ c ∈ ds, c.isDigit = true)
    (hr : startsDigit rest = false) : splitDigits (ds ++ rest) = (ds.map digitValue, rest) := by
  have he : rest.takeWhile Char.isDigit = [] ∧ rest.dropWhile Char.isDigit = rest := by
    match rest, hr with
    | [], _ => exact ⟨rfl, rfl⟩
    | c :: rest, hr =>
      have hc : c.isDigit = false := hr
      exact ⟨by simp [hc], by simp [hc]⟩
  rw [splitDigits, List.takeWhile_append_of_pos hd, List.dropWhile_append_of_pos hd, he.1, he.2,
    List.append_nil]

theorem fractionDigits_of_head {rest : List Char} (h : rest.head? ≠ some '.') :
    fractionDigits rest = ([], rest) := by
  simp [fractionDigits, h]

theorem fractionDigits_append {ds rest : List Char} (hne : ds ≠ [])
    (hd : ∀ c ∈ ds, c.isDigit = true) (hr : startsDigit rest = false) :
    fractionDigits ('.' :: (ds ++ rest)) = (ds.map digitValue, rest) := by
  have hs : startsDigit (ds ++ rest) = true := by
    obtain ⟨c, cs, rfl⟩ := List.exists_cons_of_ne_nil hne
    exact hd c List.mem_cons_self
  rw [fractionDigits]
  simp [hs, splitDigits_append hd hr]

/-- The digits of a decimal do not depend on what ends it. -/
theorem IsDecimal.digits {ds : List Char} (h : IsDecimal ds) :
    ∃ whole fraction, ∀ rest, EndsNumber rest →
      ∃ between, splitDigits (ds ++ rest) = (whole, between) ∧
        fractionDigits between = (fraction, rest) := by
  cases h with
  | whole _ hd =>
    refine ⟨ds.map digitValue, [], fun rest hr => ⟨rest, ?_, ?_⟩⟩
    · exact splitDigits_append hd hr.noDigit
    · exact fractionDigits_of_head hr.noPoint
  | @point ds es hne hd hne' he =>
    refine ⟨ds.map digitValue, es.map digitValue, fun rest hr => ⟨'.' :: (es ++ rest), ?_, ?_⟩⟩
    · rw [List.append_assoc]
      exact splitDigits_append hd rfl
    · exact fractionDigits_append hne' he hr.noDigit

theorem splitSign_of_isDigit {c : Char} (h : c.isDigit = true) (rest : List Char) :
    splitSign (c :: rest) = (false, c :: rest) := by
  unfold splitSign
  split
  · rename_i e
    cases e
    contradiction
  · rename_i e
    cases e
    contradiction
  · rfl

/-- The sign of a written number, and the digits behind it. -/
theorem splitSign_toText {x : Single} (hx : x.IsFinite) :
    ∃ negative ds, IsDecimal ds ∧ ∀ rest, splitSign (x.toText.toList ++ rest) = (negative, ds ++ rest) := by
  obtain ⟨ds, hd, e | e⟩ := toText_finite hx
  · obtain ⟨c, cs, rfl, hc⟩ := hd.exists_cons
    exact ⟨false, c :: cs, hd, fun rest => by rw [e]; exact splitSign_of_isDigit hc _⟩
  · exact ⟨true, ds, hd, fun rest => by rw [e]; rfl⟩

theorem endsNumber_nil : EndsNumber [] := ⟨rfl, by simp, rfl⟩

/-- A written number is read as far as it was written. -/
theorem numeral_toText {x : Single} (hx : x.IsFinite) {rest : List Char} (h : EndsNumber rest) :
    numeral (x.toText.toList ++ rest) = ((numeral x.toText.toList).1, rest) := by
  obtain ⟨negative, ds, hd, hs⟩ := splitSign_toText hx
  obtain ⟨whole, fraction, hf⟩ := hd.digits
  have read (rest : List Char) (h : EndsNumber rest) :
      numeral (x.toText.toList ++ rest) = (⟨negative, whole, fraction, none⟩, rest) := by
    obtain ⟨between, e₁, e₂⟩ := hf rest h
    simp only [numeral, hs, e₁, e₂, h.noExponent]
  -- what is read does not depend on what ends the number
  have alone := read [] endsNumber_nil
  rw [List.append_nil] at alone
  rw [read rest h, alone]

theorem startsMagnitude_toText {x : Single} (hx : x.IsFinite) (rest : List Char) :
    startsMagnitude (splitSign (x.toText.toList ++ rest)).2 = true := by
  obtain ⟨negative, ds, hd, hs⟩ := splitSign_toText hx
  obtain ⟨c, cs, rfl, hc⟩ := hd.exists_cons
  rw [hs]
  simp [startsMagnitude, startsDigit, hc]

/-! ## Units -/

theorem splitExponent_of_head {rest : List Char} (h : rest.head? ≠ some 'e')
    (h' : rest.head? ≠ some 'E') : Numeral.splitExponent rest = (none, rest) := by
  match rest, h, h' with
  | [], _, _ => rfl
  | c :: rest, h, h' => simp_all [Numeral.splitExponent]

/-- An `e` with neither a digit nor a sign behind it is no exponent. -/
theorem splitExponent_of_next {c d : Char} {rest : List Char} (hd : d.isDigit = false)
    (hp : d ≠ '+') (hm : d ≠ '-') :
    Numeral.splitExponent (c :: d :: rest) = (none, c :: d :: rest) := by
  have hs : splitSign (d :: rest) = (false, d :: rest) := by
    unfold splitSign
    split <;> simp_all
  simp [Numeral.splitExponent, hs, splitDigits, hd]

theorem Delimited.endsNumber {rest : List Char} (h : Delimited rest) : EndsNumber rest := by
  refine ⟨?_, h.head?_ne (by decide), ?_⟩
  · obtain ⟨c, cs, rfl, hc⟩ := h.exists_cons
    exact (of_mem_delimiters hc).2.1
  · exact splitExponent_of_head (h.head?_ne (by decide)) (h.head?_ne (by decide))

theorem endsNumber_percent (rest : List Char) : EndsNumber ('%' :: rest) :=
  ⟨rfl, by simp, splitExponent_of_head (by simp) (by simp)⟩

theorem startsDigit_of_beginsName {cs : List Char} (h : beginsName cs = true) :
    startsDigit cs = false := by
  match cs, h with
  | c :: cs, h =>
    cases hd : c.isDigit with
    | false => exact hd
    | true =>
      have hs : isNameStart c = true := by
        have hm : c ≠ '-' := by
          intro he
          subst he
          contradiction
        have hb : c ≠ '\\' := by
          intro he
          subst he
          contradiction
        simpa [beginsName, hm, hb] using h
      rw [isDigit_iff] at hd
      simp only [isNameStart, Bool.or_eq_true, isAlpha_iff, beq_iff_eq, Bool.not_eq_true',
        isASCII, decide_eq_false_iff_not] at hs
      -- a digit is neither a letter, nor one of the two marks, nor above ASCII
      have hn : c ≠ '_' ∧ c ≠ nul := by
        constructor
        · intro he
          simp [he] at hd
        · intro he
          simp [he, nul] at hd
      simp only [hn.1, hn.2, or_false] at hs
      omega

/-- Where a name begins, no point and no percent sign stands. -/
theorem head?_ne_of_beginsName {cs : List Char} (h : beginsName cs = true) :
    cs.head? ≠ some '.' ∧ cs.head? ≠ some '%' := by
  match cs, h with
  | c :: cs, h =>
    constructor
    all_goals
      intro e
      cases e
      simp [beginsName, isNameStart, nul, isASCII] at h

/-- A written character begins with itself, or with a sign that stands for it. -/
theorem nameChar_head (c : Char) :
    ∃ d tail, nameChar c = d :: tail ∧ (d = c ∨ d = '\\' ∨ d = replacement) := by
  unfold nameChar
  split
  · exact ⟨_, _, rfl, Or.inr (Or.inr rfl)⟩
  · split
    · exact ⟨_, _, rfl, Or.inl rfl⟩
    · split
      · exact ⟨_, _, rfl, Or.inr (Or.inl rfl)⟩
      · exact ⟨_, _, rfl, Or.inr (Or.inl rfl)⟩

theorem writeNameStart_first (c : Char) (cs : List Char) :
    ∃ d tail, writeNameStart (c :: cs) = d :: tail ∧ (d = c ∨ d = '\\' ∨ d = replacement) := by
  rw [writeNameStart]
  split
  · exact ⟨_, _, rfl, Or.inr (Or.inl rfl)⟩
  · obtain ⟨d, tail, e, hd⟩ := nameChar_head c
    exact ⟨d, tail ++ writeName cs, by simp [writeName, e], hd⟩

theorem writeIdent_first (c : Char) (cs : List Char) :
    ∃ d tail, writeIdent (c :: cs) = d :: tail ∧ (d = c ∨ d = '\\' ∨ d = replacement) := by
  unfold writeIdent
  split
  · contradiction
  · exact ⟨_, _, rfl, Or.inr (Or.inl rfl)⟩
  · rename_i e
    cases e
    exact ⟨_, _, rfl, Or.inl rfl⟩
  · rename_i e
    cases e
    exact ⟨_, _, rfl, Or.inl rfl⟩
  · exact writeNameStart_first c cs

/-- A written unit is the escape of its first letter, or a name that does not begin as an exponent
    would. -/
theorem writeUnit_cases (c : Char) (cs : List Char) :
    ((c = 'e' ∨ c = 'E') ∧ writeUnit (c :: cs) = hexEscape c ++ writeName cs) ∨
    (writeUnit (c :: cs) = writeIdent (c :: cs) ∧
      (c = 'e' ∨ c = 'E' →
        ∃ d ds, cs = d :: ds ∧ d.isDigit = false ∧ d ≠ '+' ∧ d ≠ '-')) := by
  by_cases he : c = 'e' ∨ c = 'E'
  · have hb : (c == 'e' || c == 'E') = true := by simpa using he
    match cs with
    | [] => exact Or.inl ⟨he, by simp only [writeUnit, hb, Bool.and_self, ↓reduceIte]⟩
    | d :: ds =>
      by_cases hm : (d.isDigit || d == '+' || d == '-') = true
      · exact Or.inl ⟨he, by simp only [writeUnit, hb, hm, Bool.and_self, ↓reduceIte]⟩
      · refine Or.inr ⟨?_, fun _ => ⟨d, ds, rfl, by simpa [and_assoc] using hm⟩⟩
        simp only [writeUnit, hm, Bool.and_false, Bool.false_eq_true, ↓reduceIte]
  · have hb : (c == 'e' || c == 'E') = false := by simpa using he
    refine Or.inr ⟨?_, fun h => absurd h he⟩
    simp only [writeUnit, hb, Bool.false_and, Bool.false_eq_true, ↓reduceIte]

theorem toNat_lt_of_e {c : Char} (h : c = 'e' ∨ c = 'E') : c ≠ nul ∧ c.toNat < 0x80 := by
  rcases h with rfl | rfl <;> decide

theorem name_writeUnit {cs : List Char} (h : nul ∉ cs) (rest : List Char) :
    name (writeUnit cs ++ rest) = (cs ++ (name rest).1, (name rest).2) := by
  match cs, h with
  | [], _ => rfl
  | c :: cs, h =>
    rcases writeUnit_cases c cs with ⟨he, e⟩ | ⟨e, -⟩
    · obtain ⟨hc, hl⟩ := toNat_lt_of_e he
      simp only [List.mem_cons, not_or] at h
      rw [e, List.append_assoc, name_hexEscape hc hl, name_writeName h.2]
      rfl
    · rw [e, name_writeIdent h]

theorem beginsName_writeUnit {cs : List Char} (hne : cs ≠ []) (rest : List Char) :
    beginsName (writeUnit cs ++ rest) = true := by
  obtain ⟨c, cs, rfl⟩ := List.exists_cons_of_ne_nil hne
  rcases writeUnit_cases c cs with ⟨he, e⟩ | ⟨e, -⟩
  · have hn := startsNewline_hexDigits c (toNat_lt_of_e he).2 (' ' :: (writeName cs ++ rest))
    rw [e]
    simpa [hexEscape] using beginsName_backslash hn
  · rw [e]
    exact beginsName_writeIdent (by simp) rest

theorem splitExponent_writeUnit {cs : List Char} (hne : cs ≠ []) (rest : List Char) :
    Numeral.splitExponent (writeUnit cs ++ rest) = (none, writeUnit cs ++ rest) := by
  obtain ⟨c, cs, rfl⟩ := List.exists_cons_of_ne_nil hne
  rcases writeUnit_cases c cs with ⟨-, e⟩ | ⟨e, hu⟩
  · rw [e]
    exact splitExponent_of_head (by simp [hexEscape]) (by simp [hexEscape])
  · by_cases he : c = 'e' ∨ c = 'E'
    · -- what is written for `d` is `d` itself or a sign that begins no exponent either
      obtain ⟨d, ds, rfl, hd, hp, hm⟩ := hu he
      obtain ⟨f, tail, ef, hf⟩ := nameChar_head d
      have et : writeUnit (c :: d :: ds) = c :: f :: (tail ++ writeName ds) := by
        have hc : nameChar c = [c] := by
          rcases he with rfl | rfl <;> decide
        rw [e]
        rcases he with rfl | rfl <;> simp [writeIdent, writeNameStart, writeName, hc, ef]
      rw [et]
      refine splitExponent_of_next ?_ ?_ ?_ <;> rcases hf with rfl | rfl | rfl <;>
        first | assumption | decide
    · obtain ⟨d, tail, ed, hd⟩ := writeIdent_first c cs
      rw [e, ed]
      simp only [not_or] at he
      refine splitExponent_of_head ?_ ?_ <;> rcases hd with rfl | rfl | rfl <;>
        simp [he, replacement]

/-- A unit does not go on with the number in front of it. -/
theorem endsNumber_writeUnit {cs : List Char} (hne : cs ≠ []) (rest : List Char) :
    EndsNumber (writeUnit cs ++ rest) :=
  have hb := beginsName_writeUnit hne rest
  ⟨startsDigit_of_beginsName hb, (head?_ne_of_beginsName hb).1, splitExponent_writeUnit hne rest⟩

/-! ## Numbers with what they count -/

/-- Both ways to read a number give it back from its own digits. -/
structure Single.ReadsBack (x : Single) : Prop where
  accumulated : ((numeral x.toText.toList).1.accumulated.convert .single).saturate = x
  nearest : ((numeral x.toText.toList).1.nearest .single).saturate = x

instance (x : Single) : Decidable x.ReadsBack :=
  decidable_of_iff (((numeral x.toText.toList).1.accumulated.convert .single).saturate = x ∧
      ((numeral x.toText.toList).1.nearest .single).saturate = x)
    ⟨fun ⟨h, h'⟩ => ⟨h, h'⟩, fun ⟨h, h'⟩ => ⟨h, h'⟩⟩

/-- A number that is read off its own digits: in front of a percent sign the nearest one, and otherwise
    what the digits add up to. -/
def Single.reread (x : Single) (unit : Option String) : Single :=
  let digits := (numeral x.toText.toList).1
  if unit = some "%" then (digits.nearest .single).saturate
  else (digits.accumulated.convert .single).saturate

theorem Single.ReadsBack.reread {x : Single} (h : x.ReadsBack) (unit : Option String) :
    x.reread unit = x := by
  rw [Single.reread]
  split
  · exact h.nearest
  · exact h.accumulated

section

variable {x : Single} (hx : x.IsFinite) {rest : List Char}

include hx

theorem numericToken_number (h : Delimited rest) :
    numericToken (x.toText.toList ++ rest) = (.number (x.reread none), rest) := by
  have hp : (rest.head? == some '%') = false := by simpa using h.head?_ne (by decide)
  simp only [numericToken, numeral_toText hx h.endsNumber, hp, Bool.false_eq_true, ↓reduceIte,
    h.beginsName, Single.reread, reduceCtorEq]

theorem numericToken_percentage :
    numericToken (x.toText.toList ++ '%' :: rest) = (.percentage (x.reread (some "%")), rest) := by
  simp only [numericToken, numeral_toText hx (endsNumber_percent rest), List.head?_cons,
    beq_self_eq_true, ↓reduceIte, Single.reread, List.tail_cons]

theorem numericToken_dimension {unit : String} (hu : IsName unit) (hne : unit ≠ "%")
    (h : Delimited rest) : numericToken (x.toText.toList ++ (writeUnit unit.toList ++ rest)) =
      (.dimension (x.reread (some unit)) unit, rest) := by
  have hb := beginsName_writeUnit hu.ne_nil rest
  have hp : ((writeUnit unit.toList ++ rest).head? == some '%') = false := by
    simpa using (head?_ne_of_beginsName hb).2
  have hw := name_writeUnit hu.noNul rest
  rw [h.name, List.append_nil] at hw
  simp only [numericToken, numeral_toText hx (endsNumber_writeUnit hu.ne_nil rest), hp,
    Bool.false_eq_true, ↓reduceIte, hb, hw, Single.reread, Option.some.injEq, hne,
    String.ofList_toList]

end

/-- The text of a number that is not finite is a name. -/
theorem toText_notFinite {x : Single} (hx : ¬ x.IsFinite) :
    x.toText = "NaN" ∨ x.toText = "inf" ∨ x.toText = "-inf" := by
  cases x with
  | nan => exact Or.inl rfl
  | infinite negative => cases negative <;> simp [Single.toText]
  | finite => exact absurd trivial hx

end Stylesheet
