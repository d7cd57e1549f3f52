import Stylesheet.Lexeme.Literal
import Stylesheet.Text.Escaped

/-!
# Written names and strings read back

What `writeIdent` writes is read by `name` as the text that was written (`name_writeIdent`), and a
name begins there (`beginsName_writeIdent`); what `writeString` writes is read by `quotedText`
(`quotedText_writeString`). The null character is the only one that does not come back.
-/

namespace Stylesheet

/-! ## Classes of characters -/

theorem isDigit_iff {c : Char} : c.isDigit = true ↔ 48 ≤ c.toNat ∧ c.toNat ≤ 57 :=
  Char.isDigit_iff_toNat

theorem isAlpha_iff {c : Char} : c.isAlpha = true ↔
    (65 ≤ c.toNat ∧ c.toNat ≤ 90) ∨ (97 ≤ c.toNat ∧ c.toNat ≤ 122) := by
  have upper : c.isUpper = decide ('A'.val ≤ c.val ∧ c.val ≤ 'Z'.val) := rfl
  have lower : c.isLower = (decide ('a'.val ≤ c.val) && decide (c.val ≤ 'z'.val)) := rfl
  have alpha : c.isAlpha = (c.isUpper || c.isLower) := rfl
  rw [alpha, upper, lower]
  simp only [Bool.or_eq_true, Bool.and_eq_true, decide_eq_true_eq, UInt32.le_iff_toNat_le]
  rfl

theorem isHexDigit_iff {c : Char} : isHexDigit c = true ↔
    (48 ≤ c.toNat ∧ c.toNat ≤ 57) ∨ (97 ≤ c.toNat ∧ c.toNat ≤ 102) ∨
      (65 ≤ c.toNat ∧ c.toNat ≤ 70) := by
  simp only [isHexDigit, Bool.or_eq_true, Bool.and_eq_true, decide_eq_true_eq, isDigit_iff,
    Char.le_def, UInt32.le_iff_toNat_le, or_assoc]
  rfl

theorem isNameChar_of_isHexDigit {c : Char} (h : isHexDigit c = true) : isNameChar c = true := by
  rw [isHexDigit_iff] at h
  simp only [isNameChar, isNameStart, Bool.or_eq_true, isAlpha_iff, isDigit_iff]
  omega

theorem isControl_of_isNewline {c : Char} (h : isNewline c = true) : isControl c = true := by
  simp only [isNewline, Bool.or_eq_true, beq_iff_eq] at h
  rcases h with (rfl | rfl) | rfl <;> rfl

theorem isBlank_of_isNewline {c : Char} (h : isNewline c = true) : isBlank c = true := by
  simp only [isNewline, Bool.or_eq_true, beq_iff_eq] at h
  rcases h with (rfl | rfl) | rfl <;> rfl

theorem toNat_lt_of_isControl {c : Char} (h : isControl c = true) : c.toNat < 0x80 := by
  simp only [isControl, Bool.or_eq_true, decide_eq_true_eq, beq_iff_eq] at h
  omega

theorem toNat_lt_of_isDigit {c : Char} (h : c.isDigit = true) : c.toNat < 0x80 := by
  rw [isDigit_iff] at h
  omega

theorem isNameChar_backslash : isNameChar '\\' = false := by decide

theorem ne_backslash_of_isNameChar {c : Char} (h : isNameChar c = true) : c ≠ '\\' := by
  intro he
  subst he
  rw [isNameChar_backslash] at h
  contradiction

/-! ## Escapes -/

theorem hexDigits_lt_128 : ∀ n < 128, (hexDigits n).foldl (fun n d => 16 * n + hexValue d) 0 = n ∧
    (hexDigits n).all isHexDigit = true ∧ (hexDigits n).length ≤ 2 := by
  decide

theorem hexDigits_ne_nil (n : Nat) : hexDigits n ≠ [] := Nat.toDigits_ne_nil

theorem ofCodePoint_toNat {c : Char} (h : c ≠ nul) : ofCodePoint c.toNat = c := by
  have hn : c.toNat ≠ 0 := fun e => h (Char.toNat_inj.1 e)
  have hv : c.toNat.isValidChar := c.valid
  rw [ofCodePoint, if_pos ⟨hn, hv⟩, Char.ofNat_toNat]

theorem unNul_of_ne {c : Char} (h : c ≠ nul) : unNul c = c := by
  simp [unNul, h]

theorem takeWhile_take_hexDigits {ds : List Char} (ha : ds.all isHexDigit = true)
    (hn : ds.length ≤ 6) (rest : List Char) :
    ((ds ++ ' ' :: rest).take 6).takeWhile isHexDigit = ds := by
  rw [List.take_append, List.take_of_length_le hn,
    List.takeWhile_append_of_pos (List.all_eq_true.1 ha)]
  cases 6 - ds.length with
  | zero => simp
  | succ n => simp [show isHexDigit ' ' = false by decide]

/-- Digits with a blank behind them are a code. -/
theorem escape_digits {ds : List Char} (hne : ds ≠ []) (ha : ds.all isHexDigit = true)
    (hn : ds.length ≤ 6) (rest : List Char) :
    escape (ds ++ ' ' :: rest) = (ofCodePoint (ds.foldl (fun n d => 16 * n + hexValue d) 0), rest) := by
  obtain ⟨d, ds, rfl⟩ := List.exists_cons_of_ne_nil hne
  have hd : isHexDigit d = true := List.all_eq_true.1 ha d List.mem_cons_self
  rw [List.cons_append, escape, if_pos hd]
  rw [← List.cons_append, takeWhile_take_hexDigits ha hn]
  simp only [List.drop_left, dropBlank]
  rfl

theorem escape_hexDigits {c : Char} (hc : c ≠ nul) (hl : c.toNat < 0x80) (rest : List Char) :
    escape (hexDigits c.toNat ++ ' ' :: rest) = (c, rest) := by
  obtain ⟨hv, ha, hn⟩ := hexDigits_lt_128 c.toNat hl
  rw [escape_digits (hexDigits_ne_nil _) ha (by omega), hv, ofCodePoint_toNat hc]

/-- Any other character behind a backslash stands for itself. -/
theorem escape_cons {c : Char} (hc : c ≠ nul) (hh : isHexDigit c = false) (rest : List Char) :
    escape (c :: rest) = (c, rest) := by
  simp [escape, hh, unNul_of_ne hc]

theorem startsNewline_hexDigits (c : Char) (hl : c.toNat < 0x80) (rest : List Char) :
    startsNewline (hexDigits c.toNat ++ rest) = false := by
  obtain ⟨-, ha, -⟩ := hexDigits_lt_128 c.toNat hl
  have hne := hexDigits_ne_nil c.toNat
  generalize hexDigits c.toNat = ds at ha hne
  match ds, hne with
  | d :: ds, _ =>
    simp only [List.all_cons, Bool.and_eq_true] at ha
    cases hd : isNewline d with
    | false => simpa [startsNewline] using hd
    | true =>
      simp only [isNewline, Bool.or_eq_true, beq_iff_eq] at hd
      rcases hd with (rfl | rfl) | rfl <;> simp [isHexDigit] at ha

/-! ## Names -/

theorem name_cons {c : Char} (hc : c ≠ nul) (h : isNameChar c = true) (rest : List Char) :
    name (c :: rest) = (c :: (name rest).1, (name rest).2) := by
  rw [name]
  simp [ne_backslash_of_isNameChar h, h, unNul_of_ne hc]

theorem name_backslash {rest : List Char} (h : startsNewline rest = false) :
    name ('\\' :: rest) =
      ((escape rest).1 :: (name (escape rest).2).1, (name (escape rest).2).2) := by
  rw [name]
  simp [h]

/-- Where neither a name character nor an escape stands, no name is read. -/
theorem name_stop {c : Char} (h : isNameChar c = false) (hb : c ≠ '\\') (rest : List Char) :
    name (c :: rest) = ([], c :: rest) := by
  rw [name]
  simp [hb, h]

theorem name_hexEscape {c : Char} (hc : c ≠ nul) (hl : c.toNat < 0x80) (rest : List Char) :
    name (hexEscape c ++ rest) = (c :: (name rest).1, (name rest).2) := by
  have e : hexEscape c ++ rest = '\\' :: (hexDigits c.toNat ++ ' ' :: rest) := by
    simp [hexEscape]
  rw [e, name_backslash (startsNewline_hexDigits c hl _), escape_hexDigits hc hl]

theorem name_nameChar {c : Char} (hc : c ≠ nul) (rest : List Char) :
    name (nameChar c ++ rest) = (c :: (name rest).1, (name rest).2) := by
  have hc' : (c == nul) = false := by simp [hc]
  simp only [nameChar, hc', Bool.false_eq_true, ↓reduceIte]
  split
  · rename_i h
    exact name_cons hc h rest
  · rename_i h
    split
    · rename_i hk
      exact name_hexEscape hc (toNat_lt_of_isControl hk) rest
    · -- a backslash in front of `c` is an escape of it: no line ends there, and no digit follows
      rename_i hk
      have hn : startsNewline (c :: rest) = false := by
        simpa [startsNewline] using fun h' => hk (isControl_of_isNewline h')
      have hh : isHexDigit c = false := by
        simpa using fun h' => h (isNameChar_of_isHexDigit h')
      simp only [List.cons_append, List.nil_append]
      rw [name_backslash hn, escape_cons hc hh]

theorem name_writeName {cs : List Char} (h : nul ∉ cs) (rest : List Char) :
    name (writeName cs ++ rest) = (cs ++ (name rest).1, (name rest).2) := by
  induction cs with
  | nil => rfl
  | cons c cs ih =>
    simp only [List.mem_cons, not_or] at h
    have e : writeName (c :: cs) ++ rest = nameChar c ++ (writeName cs ++ rest) := by
      simp [writeName]
    rw [e, name_nameChar (Ne.symm h.1), ih h.2]
    rfl

theorem name_writeNameStart {cs : List Char} (h : nul ∉ cs) (rest : List Char) :
    name (writeNameStart cs ++ rest) = (cs ++ (name rest).1, (name rest).2) := by
  match cs, h with
  | [], _ => rfl
  | c :: cs, h =>
    rw [writeNameStart]
    split
    · rename_i hd
      simp only [List.mem_cons, not_or] at h
      rw [List.append_assoc, name_hexEscape (Ne.symm h.1) (toNat_lt_of_isDigit hd),
        name_writeName h.2]
      rfl
    · exact name_writeName h rest

/-- A written name reads back as itself, together with the name that may follow it. -/
theorem name_writeIdent {cs : List Char} (h : nul ∉ cs) (rest : List Char) :
    name (writeIdent cs ++ rest) = (cs ++ (name rest).1, (name rest).2) := by
  have dash (rest : List Char) : name ('-' :: rest) = ('-' :: (name rest).1, (name rest).2) :=
    name_cons (by decide) (by decide) rest
  unfold writeIdent
  split
  · rfl
  · exact @name_backslash ('-' :: rest) rfl
  · rename_i cs
    simp only [List.mem_cons, not_or] at h
    simp only [List.cons_append]
    rw [dash, dash, name_writeName h.2.2]
  · rename_i cs _ _
    simp only [List.mem_cons, not_or] at h
    simp only [List.cons_append]
    rw [dash, name_writeNameStart h.2]
  · exact name_writeNameStart h rest

/-- A text that can be written as a name. -/
structure IsName (s : String) : Prop where
  ne_nil : s.toList ≠ []
  noNul : nul ∉ s.toList

instance (s : String) : Decidable (IsName s) :=
  decidable_of_iff (s.toList ≠ [] ∧ nul ∉ s.toList) ⟨fun ⟨h, h'⟩ => ⟨h, h'⟩, fun ⟨h, h'⟩ => ⟨h, h'⟩⟩

/-! ## Plain names -/

/-- A character that may stand behind the first one of a plain name. -/
def isPlainChar (c : Char) : Bool := c.isAlphanum || c == '-' || c == '_'

/-- An ASCII letter with ASCII letters, digits, dashes and underscores behind it. -/
def isPlainName (s : String) : Bool :=
  match s.toList with
  | [] => false
  | c :: cs => c.isAlpha && cs.all isPlainChar

theorem exists_of_isPlainName {s : String} (h : isPlainName s = true) :
    ∃ c cs, s.toList = c :: cs ∧ c.isAlpha = true ∧ ∀ d ∈ cs, isPlainChar d = true := by
  unfold isPlainName at h
  split at h
  · contradiction
  · rename_i c cs e
    rw [Bool.and_eq_true, List.all_eq_true] at h
    exact ⟨c, cs, e, h⟩

theorem isPlainChar_of_isAlpha {c : Char} (h : c.isAlpha = true) : isPlainChar c = true := by
  simp [isPlainChar, Char.isAlphanum, h]

theorem isNameChar_of_isPlainChar {c : Char} (h : isPlainChar c = true) :
    isNameChar c = true ∧ c ≠ nul := by
  constructor
  · simp only [isPlainChar, Char.isAlphanum, Bool.or_eq_true] at h
    simp only [isNameChar, isNameStart, Bool.or_eq_true]
    rcases h with ((h | h) | h) | h <;> simp [h]
  · intro he
    subst he
    contradiction

theorem isPlainChar_of_mem {s : String} (h : isPlainName s = true) :
    ∀ c ∈ s.toList, isPlainChar c = true := by
  obtain ⟨c, cs, e, hc, hcs⟩ := exists_of_isPlainName h
  rw [e]
  intro d hd
  rcases List.mem_cons.1 hd with rfl | hd
  · exact isPlainChar_of_isAlpha hc
  · exact hcs d hd

theorem isName_of_isPlainName {s : String} (h : isPlainName s = true) : IsName s where
  ne_nil := by
    obtain ⟨c, cs, e, -⟩ := exists_of_isPlainName h
    simp [e]
  noNul := fun hn => (isNameChar_of_isPlainChar (isPlainChar_of_mem h nul hn)).2 rfl

theorem isDigit_eq_false_of_isAlpha {c : Char} (h : c.isAlpha = true) : c.isDigit = false := by
  rw [isAlpha_iff] at h
  rw [← Bool.not_eq_true, isDigit_iff]
  omega

/-- A plain name is written as it is. -/
theorem writeIdent_plain {s : String} (h : isPlainName s = true) : writeIdent s.toList = s.toList := by
  have hn : writeName s.toList = s.toList := by
    have hall : ∀ cs : List Char, (∀ c ∈ cs, isPlainChar c = true) → writeName cs = cs := by
      intro cs hcs
      induction cs with
      | nil => rfl
      | cons c cs ih =>
        obtain ⟨hc, hz⟩ := isNameChar_of_isPlainChar (hcs c List.mem_cons_self)
        have e : nameChar c = [c] := by simp [nameChar, hz, hc]
        calc writeName (c :: cs) = nameChar c ++ writeName cs := List.flatMap_cons
          _ = c :: cs := by rw [e, ih fun d hd => hcs d (List.mem_cons_of_mem c hd)]; rfl
    exact hall s.toList (isPlainChar_of_mem h)
  obtain ⟨c, cs, e, hc, -⟩ := exists_of_isPlainName h
  rw [e] at hn ⊢
  have hm : c ≠ '-' := by
    intro he
    subst he
    contradiction
  rw [writeIdent]
  · rw [writeNameStart, if_neg (by rw [isDigit_eq_false_of_isAlpha hc]; simp), hn]
  all_goals simp [hm]

/-! ## Where a name begins -/

theorem isNameStart_of_isNameChar {c : Char} (h : isNameChar c = true) (hd : c.isDigit = false)
    (hm : c ≠ '-') : isNameStart c = true := by
  simpa [isNameChar, hd, hm] using h

theorem startsNewline_cons_of_not_isControl {c : Char} (h : ¬ isControl c = true)
    (rest : List Char) : startsNewline (c :: rest) = false := by
  simpa [startsNewline] using fun h' => h (isControl_of_isNewline h')

/-- What is written at the start of a name is a character that starts one, or an escape. -/
theorem writeNameStart_head {c : Char} (hm : c ≠ '-') (cs rest : List Char) :
    ∃ d tail, writeNameStart (c :: cs) ++ rest = d :: tail ∧
      (isNameStart d = true ∨ d = '\\' ∧ startsNewline tail = false) := by
  cases hd : c.isDigit with
  | true =>
    refine ⟨'\\', hexDigits c.toNat ++ ' ' :: (writeName cs ++ rest), ?_, Or.inr ⟨rfl, ?_⟩⟩
    · simp [writeNameStart, hd, hexEscape]
    · exact startsNewline_hexDigits c (toNat_lt_of_isDigit hd) _
  | false =>
    have e : writeNameStart (c :: cs) ++ rest = nameChar c ++ (writeName cs ++ rest) := by
      simp [writeNameStart, hd, writeName]
    rw [e]
    unfold nameChar
    split
    · exact ⟨_, _, rfl, Or.inl (by decide)⟩
    · split
      · rename_i hn
        exact ⟨_, _, rfl, Or.inl (isNameStart_of_isNameChar hn hd hm)⟩
      · split
        · rename_i hk
          refine ⟨'\\', hexDigits c.toNat ++ ' ' :: (writeName cs ++ rest), ?_, Or.inr ⟨rfl, ?_⟩⟩
          · simp [hexEscape]
          · exact startsNewline_hexDigits c (toNat_lt_of_isControl hk) _
        · rename_i hk
          exact ⟨_, _, rfl, Or.inr ⟨rfl, startsNewline_cons_of_not_isControl hk _⟩⟩

theorem ne_dash_of_isNameStart {c : Char} (h : isNameStart c = true) : c ≠ '-' := by
  intro he
  subst he
  exact absurd h (by decide)

theorem ne_backslash_of_isNameStart {c : Char} (h : isNameStart c = true) : c ≠ '\\' :=
  ne_backslash_of_isNameChar (by simp [isNameChar, h])

theorem beginsName_cons {c : Char} (h : isNameStart c = true) (rest : List Char) :
    beginsName (c :: rest) = true := by
  simp [beginsName, ne_dash_of_isNameStart h, ne_backslash_of_isNameStart h, h]

theorem beginsName_backslash {rest : List Char} (h : startsNewline rest = false) :
    beginsName ('\\' :: rest) = true := by
  simp [beginsName, h]

/-- A written name that is not empty begins as a name. -/
theorem beginsName_writeIdent {cs : List Char} (hne : cs ≠ []) (rest : List Char) :
    beginsName (writeIdent cs ++ rest) = true := by
  unfold writeIdent
  split
  · exact absurd rfl hne
  · exact @beginsName_backslash ('-' :: rest) rfl
  · rfl
  · rename_i cs h₁ h₂
    cases cs with
    | nil => exact absurd rfl h₁
    | cons c cs =>
      have hm : c ≠ '-' := by
        intro he
        subst he
        exact h₂ _ rfl
      obtain ⟨d, tail, e, hd⟩ := writeNameStart_head hm cs rest
      rw [List.cons_append, e]
      rcases hd with hd | ⟨rfl, -⟩
      · simp [beginsName, hd]
      · rfl
  · rename_i h₁ h₂ h₃ h₄
    cases cs with
    | nil => exact absurd rfl h₁
    | cons c cs =>
      have hm : c ≠ '-' := by
        intro he
        subst he
        exact h₄ _ rfl
      obtain ⟨d, tail, e, hd⟩ := writeNameStart_head hm cs rest
      rw [e]
      rcases hd with hd | ⟨rfl, hd⟩
      · exact beginsName_cons hd tail
      · exact beginsName_backslash hd

/-! ## Strings -/

theorem quotedText_cons {quote c : Char} (hq : c ≠ quote) (hn : isNewline c = false)
    (hb : c ≠ '\\') (hc : c ≠ nul) (rest : List Char) :
    quotedText quote (c :: rest) = (quotedText quote rest).cons c := by
  rw [quotedText]
  simp [hq, hn, hb, unNul_of_ne hc]

theorem quotedText_escape {quote : Char} (hq : quote ≠ '\\') {rest : List Char} (hne : rest ≠ [])
    (hn : startsNewline rest = false) :
    quotedText quote ('\\' :: rest) =
      (quotedText quote (escape rest).2).cons (escape rest).1 := by
  rw [quotedText]
  simp [Ne.symm hq, hn, hne, show isNewline '\\' = false from rfl]

theorem quotedText_stringChar {c : Char} (hc : c ≠ nul) (rest : List Char) :
    quotedText '"' (stringChar c ++ rest) = (quotedText '"' rest).cons c := by
  have hc' : (c == nul) = false := by simp [hc]
  unfold stringChar
  split
  · rename_i h
    have hh : isHexDigit c = false ∧ isNewline c = false := by
      simp only [Bool.or_eq_true, beq_iff_eq] at h
      rcases h with rfl | rfl <;> decide
    simp only [List.cons_append, List.nil_append]
    rw [quotedText_escape (by decide) (by simp) (by simpa [startsNewline] using hh.2),
      escape_cons hc hh.1]
  · rename_i h
    simp only [hc', Bool.false_eq_true, ↓reduceIte]
    simp only [Bool.or_eq_true, beq_iff_eq, not_or] at h
    split
    · rename_i hk
      have hl := toNat_lt_of_isControl hk
      have e : hexEscape c ++ rest = '\\' :: (hexDigits c.toNat ++ ' ' :: rest) := by
        simp [hexEscape]
      rw [e, quotedText_escape (by decide) (by simp) (startsNewline_hexDigits c hl _),
        escape_hexDigits hc hl]
    · rename_i hk
      have hn : isNewline c = false := by
        simpa using fun h' => hk (isControl_of_isNewline h')
      exact quotedText_cons h.1 hn h.2 hc rest

/-- A written string reads back as itself and is closed by its quote. -/
theorem quotedText_writeString {cs : List Char} (h : nul ∉ cs) (rest : List Char) :
    quotedText '"' (cs.flatMap stringChar ++ '"' :: rest) = ⟨cs, .closed, rest⟩ := by
  induction cs with
  | nil =>
    rw [List.flatMap_nil, List.nil_append, quotedText]
    simp
  | cons c cs ih =>
    simp only [List.mem_cons, not_or] at h
    rw [List.flatMap_cons, List.append_assoc, quotedText_stringChar (Ne.symm h.1), ih h.2]
    rfl

/-! ## What may follow -/

/-- The characters that may follow a written value. None of them goes on with a name or a number. -/
def delimiters : List Char := [',', ' ', '/', ')', ';', ':', '=']

theorem of_mem_delimiters {c : Char} (h : c ∈ delimiters) :
    isNameChar c = false ∧ c.isDigit = false ∧ c ≠ '-' ∧ c ≠ '\\' := by
  simp only [delimiters, List.mem_cons, List.not_mem_nil, or_false] at h
  rcases h with rfl | rfl | rfl | rfl | rfl | rfl | rfl <;> decide

/-- A text that begins with one of `delimiters`. -/
def Delimited : List Char → Prop
  | [] => False
  | c :: _ => c ∈ delimiters

namespace Delimited

variable {rest : List Char}

theorem exists_cons (h : Delimited rest) : ∃ c cs, rest = c :: cs ∧ c ∈ delimiters := by
  match rest, h with
  | c :: cs, h => exact ⟨c, cs, rfl, h⟩

theorem name (h : Delimited rest) : name rest = ([], rest) := by
  obtain ⟨c, cs, rfl, hc⟩ := h.exists_cons
  obtain ⟨hn, -, -, hb⟩ := of_mem_delimiters hc
  exact name_stop hn hb cs

theorem beginsName (h : Delimited rest) : beginsName rest = false := by
  obtain ⟨c, cs, rfl, hc⟩ := h.exists_cons
  obtain ⟨hn, -, hm, hb⟩ := of_mem_delimiters hc
  have hs : isNameStart c = false := by
    simp only [isNameChar, Bool.or_eq_false_iff] at hn
    exact hn.1.1
  simp [Stylesheet.beginsName, hs, hm, hb]

theorem head?_ne (h : Delimited rest) {d : Char} (hd : d ∉ delimiters) : rest.head? ≠ some d := by
  obtain ⟨c, cs, rfl, hc⟩ := h.exists_cons
  intro e
  cases e
  exact hd hc

end Delimited

end Stylesheet
