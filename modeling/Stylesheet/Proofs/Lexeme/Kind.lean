import Stylesheet.Proofs.Lexeme.Cut

/-!
# What lexemes are made of

The pieces of a text that give no token are comments, markup marks and single characters
(`fits_next`); every other piece gives a token, and none of them is the end of the tokens.
-/

namespace Stylesheet

/-- The mark that opens a comment. -/
def openingMark : List Char := ['/', '*']

/-- `text` is a comment in front of `behind`: it ends with its first closing mark, or with the text
    around it. -/
def IsComment (text behind : List Char) : Prop :=
  ∃ body, (text = openingMark ++ body ++ closingMark ∧ ¬ closingMark <:+: body ++ ['*']) ∨
    (text = openingMark ++ body ∧ behind = [] ∧ ¬ closingMark <:+: body)

/-- `<!--` and `-->`. -/
def markupMarks : List (List Char) := ["<!--".toList, "-->".toList]

namespace Lexeme.Kind

/-- The lexemes that stand for a token. -/
def GivesToken : Kind → Prop
  | .token k => k ≠ .eof
  | .cutString _ | .malformedUrl _ => True
  | .comment | .markupMark | .stray _ => False

/-- What is known of the text of a lexeme. -/
def Describes (text behind : List Char) : Kind → Prop
  | .comment => IsComment text behind
  | .markupMark => text ∈ markupMarks
  | .stray c => text = [c]
  | kind => kind.GivesToken

theorem describes_of_givesToken {kind : Kind} (h : kind.GivesToken) (text behind : List Char) :
    kind.Describes text behind := by
  cases kind <;> first | exact h | exact h.elim

end Lexeme.Kind

namespace Lexeme

open Kind

theorem numericToken_givesToken (cs : List Char) : GivesToken (.token (numericToken cs).1) := by
  simp only [numericToken]
  split
  · simp [GivesToken]
  · split <;> simp [GivesToken]

theorem identLike_givesToken (cs : List Char) : (identLike cs).1.GivesToken := by
  simp only [identLike]
  split
  · split
    · simp only [urlToken]
      split
      · simp [GivesToken]
      · split <;> simp [GivesToken]
    · simp [GivesToken]
  · simp [GivesToken]

theorem quotedToken_givesToken (quote : Char) (cs : List Char) :
    (quotedToken quote cs).1.GivesToken := by
  simp only [quotedToken]
  split <;> simp [GivesToken]

/-- The outcome of reading `c :: rest` describes the piece that was read. -/
def Fits (c : Char) (rest : List Char) (outcome : Kind × List Char) : Prop :=
  ∀ front, c :: rest = front ++ outcome.2 → outcome.1.Describes front outcome.2

theorem fits_of_givesToken {outcome : Kind × List Char} (h : outcome.1.GivesToken) (c : Char)
    (rest : List Char) : Fits c rest outcome := fun _ _ =>
  describes_of_givesToken h _ _

theorem fits_token {k : TokenKind} (h : k ≠ .eof) (c : Char) (rest behind : List Char) :
    Fits c rest (.token k, behind) :=
  fits_of_givesToken (show GivesToken (.token k) from h) c rest

/-- A character that begins nothing is read by itself. -/
theorem fits_stray (c : Char) (rest : List Char) : Fits c rest (.stray c, rest) := by
  intro front h
  show front = [c]
  apply List.append_cancel_right
  exact h.symm

theorem fits_hashToken (rest : List Char) : Fits '#' rest (hashToken rest) := by
  unfold hashToken
  split
  · exact fits_token (by simp) _ _ _
  · split
    · exact fits_token (by simp) _ _ _
    · exact fits_stray _ _

theorem fits_atToken (rest : List Char) : Fits '@' rest (atToken rest) := by
  unfold atToken
  split
  · exact fits_token (by simp) _ _ _
  · exact fits_stray _ _

theorem fits_comparisonToken (op : Comparison) {alone : Kind} {c : Char} {rest : List Char}
    (h : Fits c rest (alone, rest)) : Fits c rest (comparisonToken op alone rest) := by
  unfold comparisonToken
  split
  · exact fits_token (by simp) _ _ _
  · exact h

/-- A comment, read behind its opening mark. -/
theorem fits_comment {rest : List Char} (h : rest.head? = some '*') :
    Fits '/' rest (.comment, behindComment rest.tail) := by
  intro front e
  cases rest with
  | nil => simp at h
  | cons d rest =>
    have hd : d = '*' := by simpa using h
    subst hd
    simp only [List.tail_cons] at e ⊢
    rcases behindComment_split rest with ⟨body, e', hb⟩ | ⟨e', hb⟩
    · refine ⟨body, Or.inl ⟨?_, hb⟩⟩
      apply List.append_cancel_right
      rw [← e, List.append_assoc, List.append_assoc, ← List.append_assoc body, ← e']
      rfl
    · refine ⟨rest, Or.inr ⟨?_, e', hb⟩⟩
      rw [e', List.append_nil] at e
      exact e.symm

/-- A markup mark is the characters that it is recognized by. -/
theorem fits_markupMark {c : Char} {mark rest : List Char} (hm : c :: mark ∈ markupMarks)
    (h : mark.isPrefixOf rest = true) : Fits c rest (.markupMark, rest.drop mark.length) := by
  intro front e
  obtain ⟨behind, rfl⟩ := List.isPrefixOf_iff_prefix.1 h
  have hf : front = c :: mark := by
    apply List.append_cancel_right
    rw [← e, List.drop_left, List.cons_append]
  show front ∈ markupMarks
  rw [hf]
  exact hm

theorem fits_punctuation (c : Char) (rest : List Char) : Fits c rest (punctuation c rest) := by
  unfold punctuation
  split <;> try first
    | exact fits_of_givesToken (quotedToken_givesToken _ _) _ _
    | exact fits_hashToken rest
    | exact fits_atToken rest
    | exact fits_token (by simp) _ _ _
    | exact fits_comparisonToken _ (fits_token (by simp) _ _ _)
    | exact fits_comparisonToken _ (fits_stray _ _)
    | exact fits_stray _ _
  · split
    · rename_i h
      rw [beq_iff_eq] at h
      exact fits_comment h
    · exact fits_token (by simp) _ _ _
  · split
    · rename_i h
      exact fits_markupMark (by decide) h
    · exact fits_stray _ _
  · split
    · exact fits_token (by simp) _ _ _
    · exact fits_stray _ _

/-- Every lexeme is what its kind says. -/
theorem fits_next (c : Char) (rest : List Char) : Fits c rest (next c rest) := by
  unfold next
  split
  · exact fits_token (by simp) _ _ _
  · split
    · exact fits_of_givesToken (numericToken_givesToken _) _ _
    · split
      · rename_i h
        simp only [Bool.and_eq_true, beq_iff_eq] at h
        rw [h.1]
        exact fits_markupMark (by decide) h.2
      · split
        · exact fits_of_givesToken (identLike_givesToken _) _ _
        · exact fits_punctuation c rest

end Lexeme

end Stylesheet
