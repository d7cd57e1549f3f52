import Stylesheet.Text.Chars

/-!
# Escapes and names

Every function here reads from the front of a list of characters and returns what it read together
with the characters behind it, which are always an end of the list (`escape_suffix`, `name_suffix`).
-/

namespace Stylesheet

def startsNewline : List Char → Bool
  | [] => false
  | c :: _ => isNewline c

/-- Drops one blank, a carriage return and line feed together. -/
def dropBlank : List Char → List Char
  | [] => []
  | c :: rest =>
    if isBlank c then (if c == '\r' && rest.head? == some '\n' then rest.tail else rest)
    else c :: rest

/-- The character with a given code point; U+FFFD for the null character and for no character. -/
def ofCodePoint (n : Nat) : Char :=
  if n ≠ 0 ∧ n.isValidChar then Char.ofNat n else replacement

/-- The null character reads as U+FFFD. -/
def unNul (c : Char) : Char := if c == nul then replacement else c

/-- What an escape stands for, read behind its backslash: up to six hexadecimal digits and one blank
    are a code point, and any other character stands for itself. -/
def escape (cs : List Char) : Char × List Char :=
  match cs with
  | [] => (replacement, [])
  | c :: rest =>
    if isHexDigit c then
      let digits := (cs.take 6).takeWhile isHexDigit
      (ofCodePoint (digits.foldl (fun n d => 16 * n + hexValue d) 0),
        dropBlank (cs.drop digits.length))
    else (unNul c, rest)

theorem dropBlank_suffix : ∀ cs : List Char, dropBlank cs <:+ cs
  | [] => List.suffix_refl _
  | c :: rest => by
    simp only [dropBlank]
    split
    · split
      · exact (List.tail_suffix rest).trans (List.suffix_cons c rest)
      · exact List.suffix_cons c rest
    · exact List.suffix_refl _

theorem escape_suffix (cs : List Char) : (escape cs).2 <:+ cs := by
  match cs with
  | [] => exact List.suffix_refl _
  | c :: rest =>
    simp only [escape]
    split
    · exact (dropBlank_suffix _).trans (List.drop_suffix _ _)
    · exact List.suffix_cons c rest

/-- Reads a name: name characters and escapes, as far as they go. -/
def name : List Char → List Char × List Char
  | [] => ([], [])
  | c :: rest =>
    if c == '\\' then
      if startsNewline rest then ([], c :: rest)
      else
        have := (escape_suffix rest).length_le
        let (ds, behind) := name (escape rest).2
        ((escape rest).1 :: ds, behind)
    else if isNameChar c then
      let (ds, behind) := name rest
      (unNul c :: ds, behind)
    else ([], c :: rest)
termination_by cs => cs.length

theorem name_suffix (cs : List Char) : (name cs).2 <:+ cs := by
  fun_induction name cs with
  | case1 => exact List.suffix_refl _
  | case2 => exact List.suffix_refl _
  | case3 c rest _ _ _ ds behind h ih =>
    rw [h] at ih
    exact ih.trans ((escape_suffix rest).trans (List.suffix_cons c rest))
  | case4 c rest _ _ ds behind h ih =>
    rw [h] at ih
    exact ih.trans (List.suffix_cons c rest)
  | case5 => exact List.suffix_refl _

/-- Whether a name stands at the front: a name start, an escape, or a dash with one of these or a
    second dash behind it. Behind a dash, a backslash counts whatever follows it. -/
def beginsName : List Char → Bool
  | [] => false
  | c :: rest =>
    if c == '-' then
      match rest with
      | [] => false
      | d :: _ => isNameStart d || d == '-' || d == '\\'
    else if c == '\\' then !startsNewline rest
    else isNameStart c

/-- Where a name begins, its first character is read. -/
theorem name_suffix_tail {c : Char} {rest : List Char} (h : beginsName (c :: rest) = true) :
    (name (c :: rest)).2 <:+ rest := by
  rw [name]
  by_cases hb : c = '\\'
  · subst hb
    have hn : startsNewline rest = false := by simpa [beginsName] using h
    simp only [beq_self_eq_true, ↓reduceIte, hn, Bool.false_eq_true]
    exact (name_suffix _).trans (escape_suffix rest)
  · have hc : isNameChar c = true := by
      by_cases hd : c = '-'
      · subst hd; rfl
      · have hs : isNameStart c = true := by simpa [beginsName, hb, hd] using h
        simp [isNameChar, hs]
    simp only [beq_iff_eq, hb, ↓reduceIte, hc]
    exact name_suffix rest

end Stylesheet
