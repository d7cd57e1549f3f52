import Stylesheet.Proofs.Lexeme.Closed
import Stylesheet.Proofs.Lexeme.Scan
import Stylesheet.Proofs.Written.Normal

/-!
# The lexemes of written pieces

Each piece that `Value.toText` puts into a text is one lexeme where it stands: a name, a function
with its parenthesis, a string, a number, the digits of a color. What has to be known of the text
behind it is that it goes on with a delimiter (`Delimited`).
-/

namespace Stylesheet.Lexeme

/-! ## Names -/

theorem isBlank_cases {c : Char} (h : isBlank c = true) :
    c = ' ' ∨ c = '\t' ∨ c = '\n' ∨ c = '\r' ∨ c = '\x0c' := by
  simpa [isBlank, or_assoc] using h

theorem not_isBlank_of_beginsName {c : Char} {rest : List Char}
    (h : beginsName (c :: rest) = true) : isBlank c = false := by
  cases hb : isBlank c with
  | false => rfl
  | true =>
    rcases isBlank_cases hb with rfl | rfl | rfl | rfl | rfl <;>
      simp [beginsName, isNameStart, nul, isASCII] at h

theorem not_isBlank_of_isDigit {c : Char} (h : c.isDigit = true) : isBlank c = false := by
  cases hb : isBlank c with
  | false => rfl
  | true => rcases isBlank_cases hb with rfl | rfl | rfl | rfl | rfl <;> contradiction

/-- A name does not begin as a number does. -/
theorem not_startsMagnitude_of_beginsName {cs : List Char} (h : beginsName cs = true) :
    startsMagnitude (splitSign cs).2 = false := by
  have hd := startsDigit_of_beginsName h
  have hp := (head?_ne_of_beginsName h).1
  match cs, h with
  | [], h => contradiction
  | c :: cs, h =>
    by_cases hm : c = '-'
    · subst hm
      match cs, h with
      | d :: cs, h =>
        have hs : isNameStart d = true ∨ d = '-' ∨ d = '\\' := by simpa [beginsName, or_assoc] using h
        have hd' : d.isDigit = false := by
          rcases hs with hs | rfl | rfl
          · exact startsDigit_of_beginsName (beginsName_cons hs cs)
          · rfl
          · rfl
        have hp' : d ≠ '.' := by
          intro he
          subst he
          simp [isNameStart, nul, isASCII] at hs
        simp [splitSign, startsMagnitude, startsDigit, hd', hp']
    · have hs : splitSign (c :: cs) = (false, c :: cs) := by
        unfold splitSign
        split
        · rename_i e
          cases e
          contradiction
        · rename_i e
          cases e
          simp [beginsName, isNameStart, nul, isASCII] at h
        · rfl
      have hp' : c ≠ '.' := by simpa using hp
      rw [hs]
      simpa [startsMagnitude, hp'] using hd

/-- Where a name begins that is no markup mark, a name is read. -/
theorem next_of_beginsName {c : Char} {rest : List Char} (h : beginsName (c :: rest) = true)
    (hm : ['-', '-', '>'].isPrefixOf (c :: rest) = false) :
    next c rest = identLike (c :: rest) := by
  have hm' : (c == '-' && ['-', '>'].isPrefixOf rest) = false := by
    simpa [List.isPrefixOf, Bool.beq_comm] using hm
  simp only [next, not_isBlank_of_beginsName h, not_startsMagnitude_of_beginsName h, hm', h,
    Bool.false_eq_true, ↓reduceIte]

/-- A written name is no markup mark: of `-->` only the dashes are a name, and what follows a name
    does not begin with the rest. -/
theorem writeIdent_no_mark {cs rest : List Char} (h : nul ∉ cs) (hn : name rest = ([], rest))
    (hr : rest.head? ≠ some '>') :
    ['-', '-', '>'].isPrefixOf (writeIdent cs ++ rest) = false := by
  cases hp : ['-', '-', '>'].isPrefixOf (writeIdent cs ++ rest) with
  | false => rfl
  | true =>
    obtain ⟨t, e⟩ := List.isPrefixOf_iff_prefix.1 hp
    have hd (cs : List Char) : name ('-' :: cs) = ('-' :: (name cs).1, (name cs).2) :=
      name_cons (by decide) (by decide) cs
    have hw := name_writeIdent h rest
    have hg : name ('>' :: t) = ([], '>' :: t) := name_stop (by decide) (by decide) t
    -- the name is read up to `>`, so what follows the name begins there
    rw [← e, hn] at hw
    simp only [List.cons_append, List.nil_append, hd, hg, List.append_nil, Prod.mk.injEq] at hw
    exact absurd (by rw [← hw.2]; rfl) hr

/-- A written name is read as a name, together with what follows it. -/
theorem readAs_writeIdent {s : String} (h : IsName s) {text rest : List Char} {kind : Kind}
    (hn : name (text ++ rest) = ([], text ++ rest)) (hr : (text ++ rest).head? ≠ some '>')
    (hk : identLike (writeIdent s.toList ++ (text ++ rest)) = (kind, rest)) :
    ReadAs (writeIdent s.toList ++ text) kind rest := by
  have hb := beginsName_writeIdent h.ne_nil (text ++ rest)
  have hm := writeIdent_no_mark h.noNul hn hr
  obtain ⟨c, cs, hc⟩ := List.exists_cons_of_ne_nil h.ne_nil
  obtain ⟨d, ds, hd, -⟩ := writeIdent_first c cs
  rw [← hc] at hd
  rw [← List.append_assoc, hd, List.cons_append, List.cons_append] at hb hm hk
  refine ⟨d, ds ++ text, by rw [hd, List.cons_append], ?_⟩
  rw [next_of_beginsName hb hm]
  exact hk

theorem identLike_ident {s : String} (h : IsName s) {rest : List Char}
    (hn : name rest = ([], rest)) (hp : rest.head? ≠ some '(') :
    identLike (writeIdent s.toList ++ rest) = (.token (.ident s), rest) := by
  have hw := name_writeIdent h.noNul rest
  rw [hn, List.append_nil] at hw
  simp only [identLike, hw, String.ofList_toList]
  split
  · exact absurd rfl hp
  · rfl

theorem identLike_function {s : String} (h : IsName s) (rest : List Char) :
    identLike (writeIdent s.toList ++ '(' :: rest) =
      if sameWord s "url" then urlToken s rest else (.token (.function s), rest) := by
  have hn : name ('(' :: rest) = ([], '(' :: rest) := name_stop (by decide) (by decide) rest
  have hw := name_writeIdent h.noNul ('(' :: rest)
  rw [hn, List.append_nil] at hw
  simp only [identLike, hw, String.ofList_toList]

theorem readAs_ident {s : String} (h : IsName s) {rest : List Char} (hr : Delimited rest) :
    ReadAs (writeIdent s.toList) (.token (.ident s)) rest := by
  rw [← List.append_nil (writeIdent s.toList)]
  exact readAs_writeIdent h hr.name (hr.head?_ne (by decide))
    (identLike_ident h hr.name (hr.head?_ne (by decide)))

/-- A function with its parenthesis. -/
theorem readAs_function {s : String} (h : IsName s) (hu : sameWord s "url" = false)
    (rest : List Char) :
    ReadAs (writeIdent s.toList ++ ['(']) (.token (.function s)) rest := by
  apply readAs_writeIdent h (name_stop (by decide) (by decide) rest) (by simp)
  rw [List.singleton_append, identLike_function h]
  simp only [hu, Bool.false_eq_true, ↓reduceIte]

theorem isName_url : IsName "url" := ⟨by decide, by decide⟩

/-- In front of a string, a function is read, whatever its name is. -/
theorem readAs_function_quote {s : String} (h : IsName s) (rest : List Char) :
    ReadAs (writeIdent s.toList ++ ['(']) (.token (.function s)) ('"' :: rest) := by
  apply readAs_writeIdent h (name_stop (by decide) (by decide) _) (by simp)
  rw [List.singleton_append, identLike_function h]
  have hq : isBlank '"' = false := by decide
  simp [urlToken, hq]

theorem readAs_url (rest : List Char) :
    ReadAs "url(".toList (.token (.function "url")) ('"' :: rest) := by
  have hw : writeIdent "url".toList ++ ['('] = "url(".toList := by decide
  rw [← hw]
  exact readAs_function_quote isName_url rest

/-! ## Strings -/

theorem next_punctuation {c : Char} {rest : List Char} (hb : isBlank c = false)
    (hs : startsMagnitude (splitSign (c :: rest)).2 = false) (hm : c ≠ '-')
    (hn : beginsName (c :: rest) = false) : next c rest = punctuation c rest := by
  simp [next, hb, hs, hm, hn]

theorem readAs_string {s : String} (h : nul ∉ s.toList) (rest : List Char) :
    ReadAs (writeString s.toList) (.token (.string s)) rest := by
  refine ⟨'"', _, rfl, ?_⟩
  rw [next_punctuation (by decide) (by rfl) (by decide) (by rfl)]
  rw [List.append_assoc, List.singleton_append]
  simp [punctuation, quotedToken, quotedText_writeString h]

/-- A written string ends in its quote. -/
theorem isClosedString_writeString {s : String} (h : nul ∉ s.toList) :
    isClosedString (writeString s.toList) = true := by
  have hq := quotedText_writeString h []
  refine (isClosedString_iff_closed [] ?_ (Or.inl rfl)).2 ?_ <;> rw [List.append_nil, hq]

/-! ## Numbers -/

theorem toText_ne_nil {x : Single} (hx : x.IsFinite) : ∃ c cs, x.toText.toList = c :: cs ∧
    (c = '-' ∨ c.isDigit = true) := by
  obtain ⟨ds, hd, e | e⟩ := toText_finite hx
  · obtain ⟨c, cs, rfl, hc⟩ := hd.exists_cons
    exact ⟨c, cs, e, Or.inr hc⟩
  · exact ⟨'-', ds, e, Or.inl rfl⟩

/-- A written number is read as a number, together with the unit behind it. -/
theorem readAs_numeric {x : Single} (hx : x.IsFinite) {text rest : List Char} {kind : TokenKind}
    (hk : numericToken (x.toText.toList ++ (text ++ rest)) = (kind, rest)) :
    ReadAs (x.toText.toList ++ text) (.token kind) rest := by
  have hs := startsMagnitude_toText hx (text ++ rest)
  obtain ⟨c, cs, e, hc⟩ := toText_ne_nil hx
  have hb : isBlank c = false := by
    rcases hc with rfl | hc
    · rfl
    · exact not_isBlank_of_isDigit hc
  rw [← List.append_assoc, e, List.cons_append, List.cons_append] at hs hk
  refine ⟨c, cs ++ text, by rw [e, List.cons_append], ?_⟩
  simp only [next, hb, hs, hk, Bool.false_eq_true, ↓reduceIte]

/-! ## Colors -/

theorem hexValue_digitChar : ∀ n < 16, hexValue (Nat.digitChar n) = n ∧
    isHexDigit (Nat.digitChar n) = true := by
  decide

theorem twoDigits_isHexDigit (b : UInt8) : (Color.twoDigits b).all isHexDigit = true := by
  have hb := b.toNat_lt
  have hh := (hexValue_digitChar (b.toNat / 16) (by omega)).2
  have hl := (hexValue_digitChar (b.toNat % 16) (by omega)).2
  simp [Color.twoDigits, hh, hl]

/-- Two written digits are the byte. -/
theorem byte_twoDigits (b : UInt8) :
    Color.byte (Nat.digitChar (b.toNat / 16)) (Nat.digitChar (b.toNat % 16)) = b := by
  have hb := b.toNat_lt
  rw [Color.byte, (hexValue_digitChar (b.toNat / 16) (by omega)).1,
    (hexValue_digitChar (b.toNat % 16) (by omega)).1, Nat.div_add_mod, UInt8.ofNat_toNat]

/-- The digits of a color behind its `#`. -/
def colorDigits (c : Color) : List Char :=
  Color.twoDigits c.red ++ Color.twoDigits c.green ++ Color.twoDigits c.blue ++
    if c.alpha = 255 then [] else Color.twoDigits c.alpha

theorem toText_color (c : Color) : c.toText.toList = '#' :: colorDigits c := by
  simp [Color.toText, Color.toChars, colorDigits]

theorem colorDigits_isHexDigit (c : Color) : (colorDigits c).all isHexDigit = true := by
  unfold colorDigits
  split <;> simp only [List.all_append, twoDigits_isHexDigit, Bool.and_self, List.all_nil]

/-- The digits of a color are read as the color. -/
theorem ofHex?_colorDigits (c : Color) : Color.ofHex? (String.ofList (colorDigits c)) = some c := by
  rw [Color.ofHex?, String.toList_ofList, if_pos (colorDigits_isHexDigit c)]
  obtain ⟨r, g, b, a⟩ := c
  by_cases ha : a = 255
  · subst ha
    simp [colorDigits, Color.twoDigits, byte_twoDigits]
  · simp [colorDigits, ha, Color.twoDigits, byte_twoDigits]

theorem ne_nul_of_isHexDigit {c : Char} (h : isHexDigit c = true) : c ≠ nul := by
  intro he
  subst he
  exact absurd h (by decide)

theorem name_hexDigits {ds : List Char} (h : ds.all isHexDigit = true) (rest : List Char) :
    name (ds ++ rest) = (ds ++ (name rest).1, (name rest).2) := by
  induction ds with
  | nil => rfl
  | cons d ds ih =>
    simp only [List.all_cons, Bool.and_eq_true] at h
    rw [List.cons_append, name_cons (ne_nul_of_isHexDigit h.1)
      (isNameChar_of_isHexDigit h.1), ih h.2]
    rfl

/-- Whether digits could stand as a name does not depend on what follows them. -/
theorem beginsName_hexDigits {ds : List Char} (hne : ds ≠ []) (h : ds.all isHexDigit = true)
    (rest : List Char) :
    beginsName (ds ++ rest) = beginsName ds ∧
      (beginsName ds = false → startsDigit (ds ++ rest) = true) := by
  obtain ⟨d, ds, rfl⟩ := List.exists_cons_of_ne_nil hne
  simp only [List.all_cons, Bool.and_eq_true] at h
  have hm : d ≠ '-' := by
    intro he
    subst he
    exact absurd h.1 (by decide)
  have hb := ne_backslash_of_isHexDigit h.1
  refine ⟨by simp [beginsName, hm, hb], fun hs => ?_⟩
  have hc := isNameChar_of_isHexDigit h.1
  have hs' : isNameStart d = false := by simpa [beginsName, hm, hb] using hs
  simpa [startsDigit, isNameChar, hs', hm] using hc

/-- The token of a color. -/
def colorKind (c : Color) : TokenKind :=
  .hash (String.ofList (colorDigits c)) (beginsName (colorDigits c))

theorem readAs_color (c : Color) {rest : List Char} (hr : Delimited rest) :
    ReadAs c.toText.toList (.token (colorKind c)) rest := by
  rw [toText_color]
  refine ⟨'#', _, rfl, ?_⟩
  have hd := colorDigits_isHexDigit c
  have hn := name_hexDigits hd rest
  have hne : colorDigits c ≠ [] := by simp [colorDigits, Color.twoDigits]
  obtain ⟨hb, hs⟩ := beginsName_hexDigits hne hd rest
  rw [hr.name, List.append_nil] at hn
  rw [next_punctuation (by decide) (by rfl) (by decide) (by rfl)]
  simp only [punctuation, hashToken, hb, hn, colorKind]
  cases h : beginsName (colorDigits c) with
  | true => rfl
  | false => simp only [hs h, Bool.true_or, Bool.false_eq_true, ↓reduceIte]

/-! ## Marks and blanks -/

theorem readAs_comma (rest : List Char) : ReadAs [','] (.token .comma) rest := readAs_mark rfl

theorem readAs_equals (rest : List Char) :
    ReadAs ['='] (.token (.comparison .equals)) rest := readAs_mark rfl

theorem readAs_closingParen (rest : List Char) :
    ReadAs [')'] (.token (.closing .paren)) rest := readAs_mark rfl

/-- A slash, where no comment begins. -/
theorem readAs_slash {rest : List Char} (h : rest.head? ≠ some '*') :
    ReadAs ['/'] (.token .slash) rest := by
  apply readAs_mark
  rw [next_punctuation (by decide) (by rfl) (by decide) (by rfl)]
  simp [punctuation, h]

/-- A blank, where no other follows. -/
theorem readAs_blank {c : Char} {rest : List Char} (h : isBlank c = false) :
    ReadAs [' '] (.token .whitespace) (c :: rest) := by
  apply readAs_mark
  rw [next, if_pos (by decide), List.dropWhile_cons]
  simp [h]

end Stylesheet.Lexeme
