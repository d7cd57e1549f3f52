import Stylesheet.Proofs.Lexeme.Scan
import Stylesheet.Proofs.Number.Range
import Stylesheet.Proofs.Token.Stream
import Stylesheet.Proofs.Written.Number

/-!
# Numbers of tokens

A numeral is read off a text as far as it goes, and what is cut off behind it changes nothing
(`exists_takes_numeral`), so the numeral of a token is that of its own text. Its number is kept within the
finite numbers; only a power of ten can spoil the sum of the digits, and a percentage has no such sum
(`numericToken_saturated`).
-/

namespace Stylesheet

/-! ## How far a numeral goes -/

/-- `read` takes `front` and gives `value`, however much of `rest` follows. -/
def Takes {α : Type} (read : List Char → α × List Char) (front : List Char) (value : α)
    (rest : List Char) : Prop :=
  ∀ part, part <+: rest → read (front ++ part) = (value, part)

theorem head?_of_isPrefix {part rest : List Char} {c : Char} (h : part <+: rest)
    (hc : part.head? = some c) : rest.head? = some c := by
  obtain ⟨more, rfl⟩ := h
  rw [List.head?_append, hc, Option.some_or]

theorem startsDigit_of_isPrefix {part rest : List Char} (h : part <+: rest)
    (hs : startsDigit part = true) : startsDigit rest = true := by
  obtain ⟨more, rfl⟩ := h
  cases part with
  | nil => contradiction
  | cons c part => exact hs

/-- No digit is left behind the digits. -/
theorem startsDigit_of_prefix_dropWhile {part cs : List Char}
    (h : part <+: cs.dropWhile Char.isDigit) : startsDigit part = false := by
  rw [← Bool.not_eq_true]
  intro hs
  have hd := startsDigit_of_isPrefix h hs
  have hn := List.head?_dropWhile_not Char.isDigit cs
  cases e : cs.dropWhile Char.isDigit with
  | nil => simp [e, startsDigit] at hd
  | cons c rest =>
    rw [e] at hn hd
    simp [startsDigit] at hn hd
    simp [hd] at hn

theorem splitSign_of_head {cs : List Char} (hm : cs.head? ≠ some '-') (hp : cs.head? ≠ some '+') :
    splitSign cs = (false, cs) := by
  unfold splitSign
  split
  · exact absurd rfl hm
  · exact absurd rfl hp
  · rfl

theorem exists_takes_splitSign (cs : List Char) :
    ∃ front, cs = front ++ (splitSign cs).2 ∧
      Takes splitSign front (splitSign cs).1 (splitSign cs).2 := by
  by_cases hm : cs.head? = some '-'
  · obtain ⟨rest, rfl⟩ := List.head?_eq_some_iff.1 hm
    exact ⟨['-'], rfl, fun _ _ => rfl⟩
  by_cases hp : cs.head? = some '+'
  · obtain ⟨rest, rfl⟩ := List.head?_eq_some_iff.1 hp
    exact ⟨['+'], rfl, fun _ _ => rfl⟩
  rw [splitSign_of_head hm hp]
  exact ⟨[], rfl, fun part h =>
    splitSign_of_head (fun e => hm (head?_of_isPrefix h e)) fun e => hp (head?_of_isPrefix h e)⟩

theorem exists_takes_splitDigits (cs : List Char) :
    ∃ front, cs = front ++ (splitDigits cs).2 ∧
      Takes splitDigits front (splitDigits cs).1 (splitDigits cs).2 :=
  ⟨cs.takeWhile Char.isDigit, List.takeWhile_append_dropWhile.symm, fun _ h =>
    splitDigits_append (List.all_eq_true.1 List.all_takeWhile) (startsDigit_of_prefix_dropWhile h)⟩

/-- Where a point stands in front of a digit, it does so with more behind it. -/
theorem startsFraction_of_isPrefix {part rest : List Char} (h : part <+: rest)
    (hs : (part.head? == some '.' && startsDigit part.tail) = true) :
    (rest.head? == some '.' && startsDigit rest.tail) = true := by
  rw [Bool.and_eq_true, beq_iff_eq] at hs ⊢
  obtain ⟨more, rfl⟩ := List.head?_eq_some_iff.1 hs.1
  obtain ⟨behind, rfl⟩ := h
  exact ⟨rfl, startsDigit_of_isPrefix (List.prefix_append more behind) hs.2⟩

theorem exists_takes_fractionDigits (cs : List Char) :
    ∃ front, cs = front ++ (fractionDigits cs).2 ∧
      Takes fractionDigits front (fractionDigits cs).1 (fractionDigits cs).2 := by
  by_cases hs : (cs.head? == some '.' && startsDigit cs.tail) = true
  · rw [fractionDigits, if_pos hs]
    rw [Bool.and_eq_true, beq_iff_eq] at hs
    obtain ⟨rest, rfl⟩ := List.head?_eq_some_iff.1 hs.1
    have hne : rest.takeWhile Char.isDigit ≠ [] := by
      cases rest with
      | nil => exact absurd hs.2 (by simp [startsDigit])
      | cons c rest => simp [show c.isDigit = true from hs.2]
    exact ⟨'.' :: rest.takeWhile Char.isDigit,
      congrArg (List.cons '.') List.takeWhile_append_dropWhile.symm, fun _ h =>
        fractionDigits_append hne (List.all_eq_true.1 List.all_takeWhile)
          (startsDigit_of_prefix_dropWhile h)⟩
  · have e {part : List Char} (h : part <+: cs) : fractionDigits part = ([], part) := by
      rw [fractionDigits, if_neg fun hp => hs (startsFraction_of_isPrefix h hp)]
    rw [e (List.prefix_refl cs)]
    exact ⟨[], rfl, fun part h => e h⟩

/-- A letter `e`, an optional sign and a digit. -/
def startsExponent : List Char → Bool
  | [] => false
  | c :: rest => (c == 'e' || c == 'E') && startsDigit (splitSign rest).2

theorem startsDigit_splitSign_of_isPrefix {part rest : List Char} (h : part <+: rest)
    (hs : startsDigit (splitSign part).2 = true) : startsDigit (splitSign rest).2 = true := by
  obtain ⟨more, rfl⟩ := h
  by_cases hm : part.head? = some '-'
  · obtain ⟨digits, rfl⟩ := List.head?_eq_some_iff.1 hm
    exact startsDigit_of_isPrefix (List.prefix_append digits more) hs
  by_cases hp : part.head? = some '+'
  · obtain ⟨digits, rfl⟩ := List.head?_eq_some_iff.1 hp
    exact startsDigit_of_isPrefix (List.prefix_append digits more) hs
  rw [splitSign_of_head hm hp] at hs
  cases part with
  | nil => contradiction
  | cons c digits =>
    rw [splitSign_of_head (by simpa using hm) (by simpa using hp)]
    exact hs

theorem startsExponent_of_isPrefix {part rest : List Char} (h : part <+: rest)
    (hs : startsExponent part = true) : startsExponent rest = true := by
  cases part with
  | nil => contradiction
  | cons c part =>
    obtain ⟨more, rfl⟩ := h
    simp only [startsExponent, Bool.and_eq_true] at hs
    simp only [List.cons_append, startsExponent, hs.1, Bool.true_and]
    exact startsDigit_splitSign_of_isPrefix (List.prefix_append part more) hs.2

theorem splitDigits_ne_nil_iff (cs : List Char) :
    (splitDigits cs).1 ≠ [] ↔ startsDigit cs = true := by
  cases cs with
  | nil => exact ⟨fun h => absurd rfl h, nofun⟩
  | cons c rest => cases hc : c.isDigit <;> simp [splitDigits, startsDigit, hc]

theorem splitExponent_of_not {cs : List Char} (h : startsExponent cs ≠ true) :
    Numeral.splitExponent cs = (none, cs) := by
  cases cs with
  | nil => rfl
  | cons c rest =>
    by_cases hc : (c == 'e' || c == 'E') = true
    · simp only [Numeral.splitExponent, if_pos hc]
      split
      · rfl
      · rename_i hne e
        rw [startsExponent, hc, Bool.true_and, Ne, ← splitDigits_ne_nil_iff, e] at h
        exact absurd hne h
    · rw [Numeral.splitExponent, if_neg hc]

theorem splitExponent_of_startsExponent {c : Char} {rest : List Char}
    (h : startsExponent (c :: rest) = true) :
    Numeral.splitExponent (c :: rest) =
      (some (if (splitSign rest).1 then -(ofDigits (splitDigits (splitSign rest).2).1 : Int)
        else ofDigits (splitDigits (splitSign rest).2).1), (splitDigits (splitSign rest).2).2) := by
  rw [startsExponent, Bool.and_eq_true] at h
  simp only [Numeral.splitExponent, if_pos h.1]
  split
  · rename_i e
    have hd := (splitDigits_ne_nil_iff _).2 h.2
    rw [e] at hd
    exact absurd rfl hd
  · rename_i e
    rw [e]

theorem exists_takes_splitExponent (cs : List Char) :
    ∃ front, cs = front ++ (Numeral.splitExponent cs).2 ∧
      Takes Numeral.splitExponent front (Numeral.splitExponent cs).1 (Numeral.splitExponent cs).2 := by
  by_cases hs : startsExponent cs = true
  · cases cs with
    | nil => contradiction
    | cons c rest =>
      obtain ⟨sign, e₁, h₁⟩ := exists_takes_splitSign rest
      obtain ⟨digits, e₂, h₂⟩ := exists_takes_splitDigits (splitSign rest).2
      rw [splitExponent_of_startsExponent hs]
      refine ⟨c :: (sign ++ digits), ?_, fun part h => ?_⟩
      · rw [List.cons_append, List.append_assoc, ← e₂, ← e₁]
      · have hp : digits ++ part <+: (splitSign rest).2 := by
          rw [e₂]
          exact (List.prefix_append_right_inj _).2 h
        have hstart : startsExponent (c :: (sign ++ (digits ++ part))) = true := by
          rw [startsExponent, Bool.and_eq_true] at hs ⊢
          rw [h₁ _ hp, ← splitDigits_ne_nil_iff, h₂ _ h]
          exact ⟨hs.1, (splitDigits_ne_nil_iff _).2 hs.2⟩
        rw [List.cons_append, List.append_assoc, splitExponent_of_startsExponent hstart, h₁ _ hp,
          h₂ _ h]
  · rw [splitExponent_of_not hs]
    exact ⟨[], rfl, fun part h => splitExponent_of_not fun hp => hs (startsExponent_of_isPrefix h hp)⟩

/-- What a numeral is does not depend on where the text is cut off behind it. -/
theorem exists_takes_numeral (cs : List Char) :
    ∃ front, cs = front ++ (numeral cs).2 ∧ Takes numeral front (numeral cs).1 (numeral cs).2 := by
  obtain ⟨sign, e₁, h₁⟩ := exists_takes_splitSign cs
  obtain ⟨whole, e₂, h₂⟩ := exists_takes_splitDigits (splitSign cs).2
  obtain ⟨fraction, e₃, h₃⟩ := exists_takes_fractionDigits (splitDigits (splitSign cs).2).2
  obtain ⟨exponent, e₄, h₄⟩ :=
    exists_takes_splitExponent (fractionDigits (splitDigits (splitSign cs).2).2).2
  have e : (numeral cs).2 =
      (Numeral.splitExponent (fractionDigits (splitDigits (splitSign cs).2).2).2).2 := rfl
  rw [← e] at e₄ h₄
  refine ⟨sign ++ (whole ++ (fraction ++ exponent)), ?_, fun part h => ?_⟩
  · rw [List.append_assoc, List.append_assoc, List.append_assoc, ← e₄, ← e₃, ← e₂, ← e₁]
  · have p₃ : exponent ++ part <+: (fractionDigits (splitDigits (splitSign cs).2).2).2 := by
      rw [e₄]
      exact (List.prefix_append_right_inj _).2 h
    have p₂ : fraction ++ (exponent ++ part) <+: (splitDigits (splitSign cs).2).2 := by
      rw [e₃]
      exact (List.prefix_append_right_inj _).2 p₃
    have p₁ : whole ++ (fraction ++ (exponent ++ part)) <+: (splitSign cs).2 := by
      rw [e₂]
      exact (List.prefix_append_right_inj _).2 p₂
    simp only [List.append_assoc, numeral, h₁ _ p₁, h₂ _ p₂, h₃ _ p₃, h₄ _ h]

/-! ## The digits of a numeral -/

theorem digitValue_lt {c : Char} (h : c.isDigit = true) : digitValue c < 10 := by
  simp only [Char.isDigit, Bool.and_eq_true, decide_eq_true_eq, UInt32.le_iff_toNat_le] at h
  simp only [digitValue, Char.toNat]
  have h0 : '0'.val.toNat = 48 := rfl
  have h1 : '9'.val.toNat = 57 := rfl
  omega

theorem splitDigits_lt (cs : List Char) : ∀ d ∈ (splitDigits cs).1, d < 10 := by
  intro d hd
  obtain ⟨c, hc, rfl⟩ := List.mem_map.1 hd
  exact digitValue_lt (List.all_eq_true.1 List.all_takeWhile c hc)

theorem fractionDigits_lt (cs : List Char) : ∀ d ∈ (fractionDigits cs).1, d < 10 := by
  unfold fractionDigits
  split
  · exact splitDigits_lt _
  · exact nofun

theorem numeral_fraction_lt (cs : List Char) : ∀ d ∈ (numeral cs).1.fraction, d < 10 :=
  fractionDigits_lt _

/-! ## Numeric tokens -/

/-- What a token with the text `text` holds, if it is numeric. -/
def TokenKind.Saturated (text : List Char) : TokenKind → Prop
  | .percentage x => x.IsFinite
  | .number x | .dimension x _ =>
    (x.IsFinite ↔ ¬(numeral text).1.IsIndeterminate) ∧ (x.IsFinite ∨ x = .nan)
  | _ => True

theorem saturate_accumulated {n : Numeral} (h : ∀ d ∈ n.fraction, d < 10) :
    ((n.accumulated.convert .single).saturate.IsFinite ↔ ¬n.IsIndeterminate) ∧
      ((n.accumulated.convert .single).saturate.IsFinite ∨
        (n.accumulated.convert .single).saturate = .nan) := by
  rw [Binary.saturate_isFinite_iff, Binary.saturate_eq_nan_iff, Ne, Binary.convert_eq_nan_iff,
    Numeral.accumulated_eq_nan_iff h]
  exact ⟨Iff.rfl, (Classical.em _).symm⟩

/-- What a percentage reads to is always a number. -/
theorem saturate_nearest (n : Numeral) : (n.nearest .single).saturate.IsFinite :=
  (Binary.saturate_isFinite_iff _).2 (Binary.ofDecimal_ne_nan _ _ _ _)

/-- The numeral of a numeric token is that of its own text. -/
theorem numeral_of_numericToken {text cs : List Char} (h : cs = text ++ (numericToken cs).2) :
    (numeral text).1 = (numeral cs).1 := by
  obtain ⟨front, e, ht⟩ := exists_takes_numeral cs
  obtain ⟨part, hp⟩ := numericToken_suffix_numeral cs
  have e' : text = front ++ part := by
    apply List.append_cancel_right
    rw [← h, List.append_assoc, hp, ← e]
  rw [e', ht part ⟨_, hp⟩]

theorem numericToken_saturated {text cs : List Char} (h : cs = text ++ (numericToken cs).2) :
    (numericToken cs).1.Saturated text := by
  have hn := numeral_of_numericToken h
  have hvalue := saturate_accumulated (numeral_fraction_lt cs)
  rw [← hn] at hvalue
  simp only [numericToken]
  split
  · exact saturate_nearest _
  · rw [← hn]
    split
    · exact hvalue
    · exact hvalue

namespace Lexeme

/-- What the token of a lexeme holds, if it is numeric. -/
def Kind.Saturated (text : List Char) : Kind → Prop
  | .token k => k.Saturated text
  | _ => True

theorem identLike_saturated (text cs : List Char) : (identLike cs).1.Saturated text := by
  simp only [identLike]
  split
  · split
    · simp only [urlToken]
      split
      · trivial
      · split <;> trivial
    · trivial
  · trivial

theorem punctuation_saturated (text : List Char) (c : Char) (rest : List Char) :
    (punctuation c rest).1.Saturated text := by
  have compare (op : Comparison) {alone : Kind} (h : alone.Saturated text) :
      (comparisonToken op alone rest).1.Saturated text := by
    unfold comparisonToken
    split
    · trivial
    · exact h
  unfold punctuation
  split <;> try first
    | trivial
    | exact compare _ trivial
  · simp only [quotedToken]
    split <;> trivial
  · simp only [quotedToken]
    split <;> trivial
  · unfold hashToken
    split
    · trivial
    · split <;> trivial
  · unfold atToken
    split <;> trivial
  all_goals split <;> trivial

/-- Of all lexemes, only numbers stand for numeric tokens. -/
theorem next_saturated {c : Char} {rest text : List Char} (h : c :: rest = text ++ (next c rest).2) :
    (next c rest).1.Saturated text := by
  unfold next at h ⊢
  split
  · trivial
  · rw [if_neg ‹_›] at h
    split
    · rw [if_pos ‹_›] at h
      exact numericToken_saturated h
    · split
      · trivial
      · split
        · exact identLike_saturated text _
        · exact punctuation_saturated text c rest

theorem scan_saturated (p : Position) (cs : List Char) :
    ∀ l ∈ scan p cs, l.kind.Saturated l.text.toList := by
  fun_induction scan p cs with
  | case1 => simp
  | case2 p c rest h behind text ih =>
    have hs : behind <:+ c :: rest := (next_suffix c rest).trans (List.suffix_cons c rest)
    have e : c :: rest = text ++ behind := by
      rw [List.suffix_iff_eq_drop.1 hs]
      exact (List.take_append_drop _ _).symm
    refine List.forall_mem_cons.2 ⟨?_, ih⟩
    rw [String.toList_ofList]
    exact next_saturated e

theorem token?_saturated {l : Lexeme} (h : l.kind.Saturated l.text.toList) :
    ∀ t ∈ l.token?, t.kind.Saturated t.text.toList := by
  intro t ht
  simp only [token?, Option.mem_def] at ht
  split at ht <;> rename_i e <;> rw [e] at h <;> cases ht
  · exact h
  · trivial
  · trivial

end Lexeme

theorem tokenize_saturated (source : String) (text : List Char) (options : Options) :
    ∀ t ∈ (tokenize source text options).tokens, t.kind.Saturated t.text.toList := by
  have hl := TokenStream.ofLexemes_forall (P := fun t => t.kind.Saturated t.text.toList) source
    options.maxNestingDepth [] _
    (fun l hl => Lexeme.token?_saturated (Lexeme.scan_saturated .start text l hl))
    (fun _ _ _ => trivial)
  unfold tokenize
  dsimp only
  split
  · exact hl
  · intro t ht
    rcases List.mem_append.1 ht with ht | ht
    · exact hl t ht
    · rw [List.mem_singleton.1 ht]
      trivial

/-- A percentage is always finite. A number and a dimension are, or they are no number; the latter where
    the digits of the token add up to zero with an infinite power of ten behind them, or to an infinity
    with a power of ten that is zero, and nowhere else. -/
theorem tokenize_isFinite_iff (source : String) (text : List Char) (options : Options) :
    ∀ t ∈ (tokenize source text options).tokens,
      (∀ x, t.kind = .percentage x → x.IsFinite) ∧
      ∀ x, (t.kind = .number x ∨ ∃ unit, t.kind = .dimension x unit) →
        (x.IsFinite ↔ ¬(numeral t.text.toList).1.IsIndeterminate) ∧ (x.IsFinite ∨ x = .nan) := by
  intro t ht
  have h := tokenize_saturated source text options t ht
  refine ⟨fun x e => ?_, ?_⟩
  · rw [e] at h
    exact h
  · rintro x (e | ⟨unit, e⟩)
    · rw [e] at h
      exact h
    · rw [e] at h
      exact h

/-- A length that is too large for a number. -/
def largeText : List Char := "1e999px".toList

/-- It is the greatest number there is. -/
theorem tokenize_isFinite_largeText :
    (⟨.dimension (Binary.greatest false) "px", "1e999px", ⟨⟨1, 1⟩, ⟨1, 8⟩⟩⟩ : Token) ∈
        (tokenize "large.css" largeText ⟨256, true⟩).tokens ∧
      ((Binary.greatest false).IsFinite ↔ ¬(numeral largeText).1.IsIndeterminate) := by
  have ht : (⟨.dimension (Binary.greatest false) "px", "1e999px", ⟨⟨1, 1⟩, ⟨1, 8⟩⟩⟩ : Token) ∈
      (tokenize "large.css" largeText ⟨256, true⟩).tokens := by decide +kernel
  have h := tokenize_isFinite_iff "large.css" largeText ⟨256, true⟩ _ ht
  exact ⟨ht, (h.2 _ (Or.inr ⟨"px", rfl⟩)).1⟩

/-- Zero with a power of ten that is too large for a number. -/
def zeroText : List Char := "0e999".toList

/-- Such a zero is read to the end and is no number. -/
theorem not_isFinite_zeroText :
    (tokenize "zero.css" zeroText ⟨256, true⟩).tooDeep = none ∧
      ¬∀ t ∈ (tokenize "zero.css" zeroText ⟨256, true⟩).tokens, ∀ x, t.kind = .number x →
        x.IsFinite := by
  refine ⟨by decide +kernel, fun h => ?_⟩
  have ht : (⟨.number .nan, "0e999", ⟨⟨1, 1⟩, ⟨1, 6⟩⟩⟩ : Token) ∈
      (tokenize "zero.css" zeroText ⟨256, true⟩).tokens := by
    decide +kernel
  exact h _ ht .nan rfl

end Stylesheet
