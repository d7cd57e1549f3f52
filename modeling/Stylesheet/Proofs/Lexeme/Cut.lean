import Stylesheet.Lexeme
import Stylesheet.Proofs.Text.Position

/-!
# Where lexemes end

No reader stops between a carriage return and its line feed (`Cuts`), so the place behind a lexeme is
the same whether it is read with or without what follows. There is one lemma for each reader; they
are put together by `Cuts.trans`, up to `next_cuts`.
-/

namespace Stylesheet

/-- `behind` is an end of `cs`, and splits no line end off. -/
def Cuts (cs behind : List Char) : Prop :=
  ∃ front, cs = front ++ behind ∧ ¬ SplitsLineEnd front behind

namespace Cuts

theorem refl (cs : List Char) : Cuts cs cs :=
  ⟨[], rfl, Position.not_splitsLineEnd_nil cs⟩

theorem nil (cs : List Char) : Cuts cs [] :=
  ⟨cs, (List.append_nil cs).symm, fun h => absurd h.2 (by simp)⟩

theorem trans {a b c : List Char} (h : Cuts a b) (h' : Cuts b c) : Cuts a c := by
  obtain ⟨f, rfl, hf⟩ := h
  obtain ⟨g, rfl, hg⟩ := h'
  refine ⟨f ++ g, (List.append_assoc f g c).symm, ?_⟩
  cases g with
  | nil => simpa using hf
  | cons d g =>
    intro hs
    refine hg ⟨?_, hs.2⟩
    have hl := hs.1
    rw [List.getLast?_append, List.getLast?_eq_some_getLast (List.cons_ne_nil d g), Option.some_or] at hl
    rw [List.getLast?_eq_some_getLast (List.cons_ne_nil d g), hl]

instance : Trans Cuts Cuts Cuts := ⟨trans⟩

/-- Characters that end in no carriage return may be cut off. -/
theorem append {front : List Char} (h : front.getLast? ≠ some '\r') (behind : List Char) :
    Cuts (front ++ behind) behind :=
  ⟨front, rfl, fun hs => h hs.1⟩

theorem cons {c : Char} (h : c ≠ '\r') (rest : List Char) : Cuts (c :: rest) rest := by
  have hl : [c].getLast? ≠ some '\r' := by simpa using h
  exact append hl rest

theorem cons_of_not_isNewline {c : Char} (h : isNewline c = false) (rest : List Char) :
    Cuts (c :: rest) rest :=
  cons (by intro e; subst e; contradiction) rest

theorem tail {cs : List Char} (h : cs.head? ≠ some '\r') : Cuts cs cs.tail := by
  cases cs with
  | nil => exact refl _
  | cons c rest => exact cons (by simpa using h) rest

/-- A run of characters that takes line feeds with carriage returns. -/
theorem dropWhile {p : Char → Bool} (h : p '\r' = true → p '\n' = true) (cs : List Char) :
    Cuts cs (cs.dropWhile p) := by
  refine ⟨cs.takeWhile p, List.takeWhile_append_dropWhile.symm, fun hs => ?_⟩
  have hp : p '\r' = true := List.all_eq_true.1 List.all_takeWhile _ (List.mem_of_getLast? hs.1)
  have hn := List.head?_dropWhile_not p cs
  rw [hs.2] at hn
  simp only [h hp] at hn
  contradiction

end Cuts

/-! ## Names and literals -/

theorem dropBlank_cuts (cs : List Char) : Cuts cs (dropBlank cs) := by
  cases cs with
  | nil => exact .refl _
  | cons c rest =>
    rw [dropBlank]
    split
    · split
      · rename_i h
        simp only [Bool.and_eq_true, beq_iff_eq] at h
        cases rest with
        | nil => exact .nil _
        | cons d rest =>
          have hd : d = '\n' := by simpa using h.2
          refine ⟨[c, d], rfl, fun hs => ?_⟩
          have hl : d = '\r' := by simpa using hs.1
          rw [hd] at hl
          contradiction
      · rename_i h
        refine ⟨[c], rfl, fun hs => h ?_⟩
        have hc : c = '\r' := by simpa using hs.1
        simp [hc, hs.2]
    · exact .refl _

theorem isHexDigit_carriageReturn : isHexDigit '\r' = false := by decide

theorem escape_cuts {cs : List Char} (h : startsNewline cs = false) : Cuts cs (escape cs).2 := by
  cases cs with
  | nil => exact .refl _
  | cons c rest =>
    simp only [escape]
    split
    · refine .trans ⟨((c :: rest).take 6).takeWhile isHexDigit, ?_, fun hs => ?_⟩ (dropBlank_cuts _)
      · exact (List.prefix_iff_eq_append.1
          ((List.takeWhile_prefix _).trans (List.take_prefix 6 (c :: rest)))).symm
      · have hh := List.all_eq_true.1 List.all_takeWhile _ (List.mem_of_getLast? hs.1)
        rw [isHexDigit_carriageReturn] at hh
        contradiction
    · exact .cons_of_not_isNewline h rest

theorem isNameChar_carriageReturn : isNameChar '\r' = false := by decide

theorem name_cuts (cs : List Char) : Cuts cs (name cs).2 := by
  fun_induction name cs with
  | case1 => exact .refl _
  | case2 => exact .refl _
  | case3 c rest hb hn _ ds behind h ih =>
    rw [h] at ih
    have hc : c ≠ '\r' := by
      intro e
      subst e
      contradiction
    calc
      Cuts (c :: rest) rest := .cons hc rest
      Cuts _ (escape rest).2 := escape_cuts (by simpa using hn)
      Cuts _ behind := ih
  | case4 c rest _ hn ds behind h ih =>
    rw [h] at ih
    have hc : c ≠ '\r' := by
      intro e
      subst e
      rw [isNameChar_carriageReturn] at hn
      contradiction
    exact (Cuts.cons hc rest).trans ih
  | case5 => exact .refl _

theorem quotedText_cuts {quote : Char} (hq : quote ≠ '\r') (cs : List Char) :
    Cuts cs (quotedText quote cs).rest := by
  fun_induction quotedText quote cs with
  | case1 => exact .refl _
  | case2 c rest h =>
    rw [beq_iff_eq] at h
    exact .cons (by rw [h]; exact hq) rest
  | case3 => exact .refl _
  | case4 => exact .nil _
  | case5 c rest _ hn _ _ _ _ ih =>
    calc
      Cuts (c :: rest) rest := .cons_of_not_isNewline (by simpa using hn) rest
      Cuts _ (dropBlank rest) := dropBlank_cuts rest
      Cuts _ _ := ih
  | case6 c rest _ hn _ _ h _ ih =>
    calc
      Cuts (c :: rest) rest := .cons_of_not_isNewline (by simpa using hn) rest
      Cuts _ (escape rest).2 := escape_cuts (by simpa using h)
      Cuts _ _ := ih
  | case7 c rest _ hn _ ih => exact (Cuts.cons_of_not_isNewline (by simpa using hn) rest).trans ih

/-- The mark that closes a comment. -/
def closingMark : List Char := ['*', '/']

/-- A comment reaches to the first closing mark, or to the end of the text. -/
theorem behindComment_split (cs : List Char) :
    (∃ body, cs = body ++ closingMark ++ behindComment cs ∧ ¬ closingMark <:+: body ++ ['*']) ∨
      (behindComment cs = [] ∧ ¬ closingMark <:+: cs) := by
  induction cs with
  | nil => exact Or.inr ⟨rfl, by simp [closingMark]⟩
  | cons c rest ih =>
    rw [behindComment]
    split
    · rename_i h
      simp only [Bool.and_eq_true, beq_iff_eq] at h
      cases rest with
      | nil => simp at h
      | cons d rest =>
        have hd : d = '/' := by simpa using h.2
        refine Or.inl ⟨[], by rw [h.1, hd]; rfl, ?_⟩
        intro hi
        have hl := hi.length_le
        simp [closingMark] at hl
    · rename_i h
      -- the mark does not stand at `c`
      have front (tail : List Char) (ht : tail.head? = rest.head?) : ¬ closingMark <+: c :: tail := by
        intro hp
        apply h
        cases tail with
        | nil => exact absurd hp.length_le (by simp [closingMark])
        | cons d tail =>
          rw [closingMark, List.cons_prefix_cons, List.cons_prefix_cons] at hp
          rw [← ht, ← hp.1, ← hp.2.1]
          rfl
      rcases ih with ⟨body, e, hb⟩ | ⟨e, hb⟩
      · refine Or.inl ⟨c :: body, ?_, ?_⟩
        · rw [List.cons_append, List.cons_append, ← e]
        · rw [List.cons_append, List.infix_cons_iff]
          intro hi
          rcases hi with hp | hi
          · refine front (body ++ ['*']) ?_ hp
            rw [e]
            cases body <;> rfl
          · exact hb hi
      · refine Or.inr ⟨e, ?_⟩
        rw [List.infix_cons_iff]
        intro hi
        rcases hi with hp | hi
        · exact front rest rfl hp
        · exact hb hi

theorem behindComment_cuts (cs : List Char) : Cuts cs (behindComment cs) := by
  rcases behindComment_split cs with ⟨body, e, -⟩ | ⟨e, -⟩
  · refine ⟨body ++ closingMark, e, fun hs => ?_⟩
    have hl := hs.1
    rw [closingMark, List.getLast?_append] at hl
    exact absurd hl (by simp)
  · rw [e]
    exact .nil cs

/-! ## Addresses -/

namespace Cuts

theorem of_suffix {cs behind : List Char} (h : behind <:+ cs) (hb : behind.head? ≠ some '\n') :
    Cuts cs behind := by
  obtain ⟨front, rfl⟩ := h
  exact ⟨front, rfl, fun hs => hb hs.2⟩

end Cuts

theorem malformedEnd_head (cs : List Char) :
    malformedEnd cs = [] ∨ (malformedEnd cs).head? = some ')' := by
  fun_induction malformedEnd cs with
  | case1 => exact Or.inl rfl
  | case2 c rest _ ih => exact ih
  | case3 c rest _ ih => exact ih
  | case4 c rest _ h =>
    rw [beq_iff_eq] at h
    exact Or.inr (by rw [h]; rfl)
  | case5 c rest _ _ ih => exact ih

theorem malformedEnd_cuts (cs : List Char) : Cuts cs (malformedEnd cs) := by
  apply Cuts.of_suffix (malformedEnd_suffix cs)
  rcases malformedEnd_head cs with e | e <;> rw [e] <;> simp

theorem malformedEnd_tail_cuts (cs : List Char) : Cuts (malformedEnd cs) (malformedEnd cs).tail := by
  apply Cuts.tail
  rcases malformedEnd_head cs with e | e <;> rw [e] <;> simp

theorem isBlank_carriageReturn : isBlank '\r' = true → isBlank '\n' = true := fun _ => rfl

/-- What an address comes to: a good one ends behind its parenthesis, a malformed one in front. -/
def Address.Ends (cs : List Char) : Address → Prop
  | .good _ rest => Cuts cs rest
  | .malformed rest => Cuts cs rest ∧ Cuts rest rest.tail

theorem Address.Ends.cons {cs cs' : List Char} {a : Address} (h : a.Ends cs') (hc : Cuts cs cs')
    (c : Char) : (a.cons c).Ends cs := by
  cases a with
  | good value rest => exact hc.trans h
  | malformed rest => exact ⟨hc.trans h.1, h.2⟩

theorem addressEnd_ends (cs : List Char) : (addressEnd cs).Ends cs := by
  have hd := Cuts.dropWhile isBlank_carriageReturn cs
  unfold addressEnd
  split
  · exact .nil cs
  · rename_i c rest e
    have hb : isBlank c = false := by
      have hn := List.head?_dropWhile_not isBlank cs
      rw [e] at hn
      exact hn
    have hc : c ≠ '\r' := by
      intro e'
      rw [e'] at hb
      contradiction
    rw [e] at hd
    split
    · exact hd.trans (.cons hc rest)
    · refine ⟨?_, malformedEnd_tail_cuts rest⟩
      calc
        Cuts cs (c :: rest) := hd
        Cuts _ rest := .cons hc rest
        Cuts _ (malformedEnd rest) := malformedEnd_cuts rest

theorem ne_carriageReturn_of_not_isBlank {c : Char} (h : ¬ isBlank c = true) : c ≠ '\r' := by
  intro e
  subst e
  exact h rfl

theorem address_ends (cs : List Char) : (address cs).Ends cs := by
  have malformed {c : Char} {rest : List Char} (hc : c ≠ '\r') :
      Address.Ends (c :: rest) (.malformed (malformedEnd rest)) :=
    ⟨(Cuts.cons hc rest).trans (malformedEnd_cuts rest), malformedEnd_tail_cuts rest⟩
  fun_induction address cs with
  | case1 => exact Cuts.refl _
  | case2 c rest h =>
    rw [beq_iff_eq] at h
    exact Cuts.cons (by rw [h]; decide) rest
  | case3 c rest _ hb =>
    -- a blank in front changes nothing, so no line end is split behind it
    have e : addressEnd (c :: rest) = addressEnd rest := by simp [addressEnd, hb]
    rw [← e]
    exact addressEnd_ends (c :: rest)
  | case4 c rest _ hb => exact malformed (ne_carriageReturn_of_not_isBlank hb)
  | case5 c rest _ hb => exact malformed (ne_carriageReturn_of_not_isBlank hb)
  | case6 c rest _ hb _ _ hn _ ih =>
    exact ih.cons ((Cuts.cons (ne_carriageReturn_of_not_isBlank hb) rest).trans
      (escape_cuts (by simpa using hn))) _
  | case7 c rest _ hb _ _ ih =>
    exact ih.cons (.cons (ne_carriageReturn_of_not_isBlank hb) rest) _

/-! ## Numbers -/

theorem isDigit_carriageReturn : Char.isDigit '\r' = true → Char.isDigit '\n' = true := by decide

theorem splitSign_cuts (cs : List Char) : Cuts cs (splitSign cs).2 := by
  unfold splitSign
  split
  · exact .cons (by decide) _
  · exact .cons (by decide) _
  · exact .refl _

theorem splitDigits_cuts (cs : List Char) : Cuts cs (splitDigits cs).2 :=
  .dropWhile isDigit_carriageReturn cs

theorem fractionDigits_cuts (cs : List Char) : Cuts cs (fractionDigits cs).2 := by
  unfold fractionDigits
  split
  · rename_i h
    simp only [Bool.and_eq_true, beq_iff_eq] at h
    exact (Cuts.tail (by rw [h.1]; decide)).trans (splitDigits_cuts _)
  · exact .refl _

theorem splitExponent_cuts (cs : List Char) : Cuts cs (Numeral.splitExponent cs).2 := by
  unfold Numeral.splitExponent
  split
  · rename_i c rest
    split
    · rename_i hc
      have he : c ≠ '\r' := by
        intro e
        subst e
        contradiction
      have h : Cuts (c :: rest) (splitDigits (splitSign rest).2).2 := calc
        Cuts (c :: rest) rest := .cons he rest
        Cuts _ (splitSign rest).2 := splitSign_cuts rest
        Cuts _ (splitDigits (splitSign rest).2).2 := splitDigits_cuts _
      simp only
      split
      · exact .refl _
      · rename_i e
        rw [e] at h
        exact h
    · exact .refl _
  · exact .refl _

theorem numeral_cuts (cs : List Char) : Cuts cs (numeral cs).2 := calc
  Cuts cs (splitSign cs).2 := splitSign_cuts cs
  Cuts _ (splitDigits (splitSign cs).2).2 := splitDigits_cuts _
  Cuts _ (fractionDigits (splitDigits (splitSign cs).2).2).2 := fractionDigits_cuts _
  Cuts _ (numeral cs).2 := splitExponent_cuts _

theorem numericToken_cuts (cs : List Char) : Cuts cs (numericToken cs).2 := by
  have h := numeral_cuts cs
  simp only [numericToken]
  split
  · rename_i hp
    rw [beq_iff_eq] at hp
    exact h.trans (.tail (by rw [hp]; decide))
  · split
    · exact h.trans (name_cuts _)
    · exact h

/-! ## Lexemes -/

namespace Lexeme

theorem behindIgnored_head (cs : List Char) : (behindIgnored cs).head? ≠ some '\n' := by
  fun_induction behindIgnored cs with
  | case1 => simp
  | case2 c rest _ ih => exact ih
  | case3 c rest _ _ _ _ ih => exact ih
  | case4 c rest hb _ =>
    intro e
    cases e
    exact hb rfl

theorem important?_cuts {cs behind : List Char} (h : important? cs = some behind) :
    Cuts cs behind := by
  simp only [important?] at h
  split at h
  · rw [← Option.some.inj h]
    exact (Cuts.of_suffix (behindIgnored_suffix cs) (behindIgnored_head cs)).trans (name_cuts _)
  · contradiction

theorem urlToken_cuts (functionName : String) (cs : List Char) :
    Cuts cs (urlToken functionName cs).2 := by
  have hd := Cuts.dropWhile isBlank_carriageReturn cs
  have ha := address_ends (cs.dropWhile isBlank)
  simp only [urlToken]
  split
  · exact .refl _
  · split
    · rename_i e
      rw [e] at ha
      exact hd.trans ha
    · rename_i e
      rw [e] at ha
      calc
        Cuts cs (cs.dropWhile isBlank) := hd
        Cuts _ _ := ha.1
        Cuts _ _ := ha.2

theorem identLike_cuts (cs : List Char) : Cuts cs (identLike cs).2 := by
  have hn := name_cuts cs
  simp only [identLike]
  split
  · rename_i rest e
    rw [e] at hn
    have hp := hn.trans (.cons (by decide) rest)
    split
    · exact hp.trans (urlToken_cuts _ rest)
    · exact hp
  · exact hn

theorem punctuation_cuts (c : Char) (rest : List Char) : Cuts rest (punctuation c rest).2 := by
  have hash : Cuts rest (hashToken rest).2 := by
    unfold hashToken
    split
    · exact name_cuts rest
    · split
      · exact name_cuts rest
      · exact .refl _
  have keyword : Cuts rest (atToken rest).2 := by
    unfold atToken
    split
    · exact name_cuts rest
    · exact .refl _
  have compare (op : Comparison) (alone : Kind) : Cuts rest (comparisonToken op alone rest).2 := by
    unfold comparisonToken
    split
    · rename_i h
      rw [beq_iff_eq] at h
      exact .tail (by rw [h]; decide)
    · exact .refl _
  unfold punctuation
  split <;> try first
    | exact .refl _
    | exact quotedText_cuts (by decide) rest
    | exact hash
    | exact keyword
    | exact compare _ _
  · split
    · rename_i h
      rw [beq_iff_eq] at h
      exact (Cuts.tail (by rw [h]; decide)).trans (behindComment_cuts _)
    · exact .refl _
  · split
    · rename_i h
      obtain ⟨t, rfl⟩ := List.isPrefixOf_iff_prefix.1 h
      exact Cuts.append (show ['!', '-', '-'].getLast? ≠ some '\r' by decide) t
    · exact .refl _
  · split
    · rename_i h
      exact important?_cuts h
    · exact .refl _

/-- A lexeme ends at no place inside a line end. -/
theorem next_cuts (c : Char) (rest : List Char) : Cuts (c :: rest) (next c rest).2 := by
  unfold next
  split
  · rename_i h
    have hd := Cuts.dropWhile isBlank_carriageReturn (c :: rest)
    rw [List.dropWhile_cons, if_pos h] at hd
    exact hd
  · rename_i hb
    have hc := Cuts.cons (ne_carriageReturn_of_not_isBlank hb) rest
    split
    · exact numericToken_cuts _
    · split
      · rename_i h
        simp only [Bool.and_eq_true] at h
        obtain ⟨t, rfl⟩ := List.isPrefixOf_iff_prefix.1 h.2
        exact hc.trans (Cuts.append (show ['-', '>'].getLast? ≠ some '\r' by decide) t)
      · split
        · exact identLike_cuts _
        · exact hc.trans (punctuation_cuts c rest)

end Lexeme

end Stylesheet
