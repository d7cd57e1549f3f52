import Stylesheet.Proofs.Lexeme.Scan
import Stylesheet.Token.Stream

/-!
# What lexemes hold

No name that is read is empty, and a string is written with a quote (`next_filledBy`). A function that
bears the name of an address stands in front of a string (`urlsQuoted_scan`): without one, an address
is read there, or what is wrong with it.
-/

namespace Stylesheet

/-- What a token holds that is written as `text`. -/
def TokenKind.FilledBy (text : List Char) : TokenKind → Prop
  | .ident name | .function name => name.toList ≠ []
  | .dimension _ unit => unit.toList ≠ []
  | .string _ => '"' ∈ text ∨ '\'' ∈ text
  | .hash .. => text ≠ []
  | _ => True

namespace Lexeme

/-- What the token of a lexeme holds. -/
def Kind.FilledBy (text : List Char) : Kind → Prop
  | .token k => k.FilledBy text
  | .cutString value => (TokenKind.string value).FilledBy text
  | _ => True

/-- Where a name begins, it has a character. -/
theorem name_ne_nil {cs : List Char} (h : beginsName cs = true) : (name cs).1 ≠ [] := by
  match cs, h with
  | c :: rest, h =>
    rw [name]
    by_cases hb : c = '\\'
    · subst hb
      have hn : startsNewline rest = false := by simpa [beginsName] using h
      simp [hn]
    · have hc : isNameChar c = true := by
        by_cases hd : c = '-'
        · subst hd
          rfl
        · have hs : isNameStart c = true := by simpa [beginsName, hb, hd] using h
          simp [isNameChar, hs]
      simp [hb, hc]

theorem numericToken_filledBy (text cs : List Char) : (numericToken cs).1.FilledBy text := by
  simp only [numericToken]
  split
  · trivial
  · split
    · rename_i h
      simpa [TokenKind.FilledBy] using name_ne_nil h
    · trivial

theorem identLike_filledBy (text : List Char) {cs : List Char} (h : beginsName cs = true) :
    (identLike cs).1.FilledBy text := by
  have hn : (String.ofList (name cs).1).toList ≠ [] := by
    rw [String.toList_ofList]
    exact name_ne_nil h
  simp only [identLike]
  split
  · split
    · simp only [urlToken]
      split
      · exact hn
      · split <;> trivial
    · exact hn
  · exact hn

theorem quotedToken_filledBy {quote : Char} (hq : quote = '"' ∨ quote = '\'') (text cs : List Char) :
    (quotedToken quote cs).1.FilledBy (quote :: text) := by
  have h : (TokenKind.string (String.ofList (quotedText quote cs).value)).FilledBy
      (quote :: text) := by
    rcases hq with rfl | rfl
    · exact Or.inl List.mem_cons_self
    · exact Or.inr List.mem_cons_self
  simp only [quotedToken]
  split <;> exact h

theorem punctuation_filledBy (c : Char) (text rest : List Char) :
    (punctuation c rest).1.FilledBy (c :: text) := by
  have hash : (hashToken rest).1.FilledBy ('#' :: text) := by
    unfold hashToken
    split
    · exact List.cons_ne_nil _ _
    · split
      · exact List.cons_ne_nil _ _
      · trivial
  have keyword : (atToken rest).1.FilledBy ('@' :: text) := by
    unfold atToken
    split <;> trivial
  have compare (op : Comparison) {alone : Kind} (h : alone.FilledBy (c :: text)) :
      (comparisonToken op alone rest).1.FilledBy (c :: text) := by
    unfold comparisonToken
    split
    · trivial
    · exact h
  unfold punctuation
  split <;> try first
    | exact quotedToken_filledBy (Or.inl rfl) text rest
    | exact quotedToken_filledBy (Or.inr rfl) text rest
    | exact hash
    | exact keyword
    | exact compare _ trivial
    | trivial
  all_goals split <;> trivial

/-- The token of a lexeme is filled, whatever the lexeme takes behind its first character. -/
theorem next_filledBy (c : Char) (rest text : List Char) :
    (next c rest).1.FilledBy (c :: text) := by
  unfold next
  split
  · trivial
  · split
    · exact numericToken_filledBy _ _
    · split
      · trivial
      · split
        · rename_i h
          exact identLike_filledBy _ h
        · exact punctuation_filledBy c text rest

theorem scan_filledBy (p : Position) (cs : List Char) :
    ∀ l ∈ scan p cs, l.kind.FilledBy l.text.toList := by
  fun_induction scan p cs with
  | case1 => simp
  | case2 p c rest h behind text ih =>
    intro l hl
    rcases List.mem_cons.1 hl with rfl | hl
    · obtain ⟨d, ds, e⟩ := List.exists_cons_of_ne_nil (piece_ne_nil c rest)
      have ht : text = c :: ds := by
        have hd : (c :: rest).take (rest.length + 1 - (next c rest).2.length) <+: c :: rest :=
          List.take_prefix _ _
        rw [e] at hd
        obtain ⟨more, hm⟩ := hd
        rw [show text = d :: ds from e, (List.cons.inj hm).1]
      show (next c rest).1.FilledBy (String.ofList text).toList
      rw [String.toList_ofList, ht]
      exact next_filledBy c rest ds
    · exact ih l hl

theorem token?_filledBy {l : Lexeme} (h : l.kind.FilledBy l.text.toList) :
    ∀ t ∈ l.token?, t.kind.FilledBy t.text.toList := by
  intro t ht
  simp only [token?, Option.mem_def] at ht
  split at ht <;> rename_i e <;> rw [e] at h <;> cases ht
  · exact h
  · exact h
  · trivial

/-! ## Functions in front of strings -/

/-- Behind each function that bears the name of an address, a string is the next lexeme of weight. -/
def UrlsQuoted : List Lexeme → Prop
  | [] => True
  | l :: ls =>
    (∀ name, l.kind = .token (.function name) → sameWord name "url" = true →
      ∃ s behind, ls.dropWhile isIgnorable = s :: behind ∧ s.stringValue?.isSome = true) ∧
    UrlsQuoted ls

/-- Whether a quote stands behind the blanks at the front. -/
def StartsQuoted (cs : List Char) : Prop :=
  ∃ quote rest, cs.dropWhile isBlank = quote :: rest ∧ (quote = '"' ∨ quote = '\'')

theorem urlToken_startsQuoted {functionName name : String} {cs : List Char}
    (h : (urlToken functionName cs).1 = .token (.function name)) :
    StartsQuoted (urlToken functionName cs).2 := by
  simp only [urlToken] at h ⊢
  split at h
  · rename_i hq
    rw [if_pos hq]
    generalize hd : cs.dropWhile isBlank = inner at hq
    cases inner with
    | nil => contradiction
    | cons c rest => exact ⟨c, rest, hd, by simpa using hq⟩
  · split at h <;> simp at h

theorem identLike_startsQuoted {name : String} {cs : List Char}
    (h : (identLike cs).1 = .token (.function name)) (hu : sameWord name "url" = true) :
    StartsQuoted (identLike cs).2 := by
  simp only [identLike] at h ⊢
  split at h
  · split at h
    · rename_i hw
      rw [if_pos hw]
      exact urlToken_startsQuoted h
    · rename_i hw
      cases h
      contradiction
  · simp at h

theorem punctuation_ne_function (c : Char) (rest : List Char) (name : String) :
    (punctuation c rest).1 ≠ .token (.function name) := by
  have compare (op : Comparison) {alone : Kind} (h : alone ≠ .token (.function name)) :
      (comparisonToken op alone rest).1 ≠ .token (.function name) := by
    unfold comparisonToken
    split
    · simp
    · exact h
  have quoted (quote : Char) : (quotedToken quote rest).1 ≠ .token (.function name) := by
    simp only [quotedToken]
    split <;> simp
  unfold punctuation
  split <;> try first
    | exact quoted _
    | exact compare _ (by simp)
    | simp
  · unfold hashToken
    split
    · simp
    · split <;> simp
  · unfold atToken
    split <;> simp
  all_goals split <;> simp

theorem next_startsQuoted {c : Char} {rest : List Char} {name : String}
    (h : (next c rest).1 = .token (.function name)) (hu : sameWord name "url" = true) :
    StartsQuoted (next c rest).2 := by
  unfold next at h ⊢
  split at h
  · simp at h
  · rename_i hb
    rw [if_neg hb]
    split at h
    · simp only [numericToken] at h
      split at h
      · simp at h
      · split at h <;> simp at h
    · rename_i hm
      rw [if_neg hm]
      split at h
      · contradiction
      · rename_i hd
        rw [if_neg hd]
        split at h
        · rename_i hn
          rw [if_pos hn]
          exact identLike_startsQuoted h hu
        · exact absurd h (punctuation_ne_function c rest name)

/-- Where a quote stands, a string is read. -/
theorem scan_quote {quote : Char} (h : quote = '"' ∨ quote = '\'') (p : Position)
    (rest : List Char) :
    ∃ s behind, scan p (quote :: rest) = s :: behind ∧ s.isIgnorable = false ∧
      s.stringValue?.isSome = true := by
  have hk : ∃ value, (next quote rest).1 = .token (.string value) ∨
      (next quote rest).1 = .cutString value := by
    have hp : (next quote rest).1 = (quotedToken quote rest).1 := by
      rcases h with rfl | rfl <;> rfl
    rw [hp]
    simp only [quotedToken]
    split
    · exact ⟨_, Or.inr rfl⟩
    · exact ⟨_, Or.inl rfl⟩
  rw [scan]
  refine ⟨_, _, rfl, ?_⟩
  obtain ⟨value, e | e⟩ := hk
  · simp only [isIgnorable, stringValue?, e]
    exact ⟨rfl, rfl⟩
  · simp only [isIgnorable, stringValue?, e]
    exact ⟨trivial, rfl⟩

theorem scan_startsQuoted {cs : List Char} (h : StartsQuoted cs) (p : Position) :
    ∃ s behind, (scan p cs).dropWhile isIgnorable = s :: behind ∧
      s.stringValue?.isSome = true := by
  obtain ⟨quote, rest, e, hq⟩ := h
  have front (p : Position) : ∃ s behind,
      (scan p (quote :: rest)).dropWhile isIgnorable = s :: behind ∧
        s.stringValue?.isSome = true := by
    obtain ⟨s, behind, e, hi, hs⟩ := scan_quote hq p rest
    exact ⟨s, behind, by rw [e, List.dropWhile_cons, hi, if_neg Bool.false_ne_true], hs⟩
  cases cs with
  | nil => contradiction
  | cons c cs =>
    rw [List.dropWhile_cons] at e
    split at e
    · -- the blanks are one lexeme
      rename_i hb
      have hn : next c cs = (.token .whitespace, quote :: rest) := by
        rw [next, if_pos hb, e]
      obtain ⟨s, behind, hs⟩ := front (p.after ((c :: cs).take
        (cs.length + 1 - (quote :: rest).length)))
      refine ⟨s, behind, ?_, hs.2⟩
      rw [scan]
      simp only [hn]
      rw [List.dropWhile_cons, if_pos (by rfl)]
      exact hs.1
    · rw [e]
      exact front p

theorem urlsQuoted_scan (p : Position) (cs : List Char) : UrlsQuoted (scan p cs) := by
  fun_induction scan p cs with
  | case1 => exact trivial
  | case2 p c rest h behind text ih =>
    refine ⟨fun name hk hu => ?_, ih⟩
    exact scan_startsQuoted (next_startsQuoted hk hu) _

end Lexeme

end Stylesheet
