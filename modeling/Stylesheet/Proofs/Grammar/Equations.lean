import Stylesheet.Grammar.Statement

/-!
# The loops of the grammar, one step at a time

What each loop does with the tokens in front of it, without the bounds that its recursion carries.
-/

namespace Stylesheet.Grammar

theorem skipBlank_cons {t : Placed} (h : t.kind ≠ .whitespace) (rest : Tokens) :
    Tokens.skipBlank (t :: rest) = t :: rest := by
  have hb : Tokens.isBlank t = false := by
    rw [Tokens.isBlank, Token.isWhitespace, beq_eq_false_iff_ne]
    exact h
  rw [Tokens.skipBlank, List.dropWhile_cons, if_neg (by simp [hb])]

theorem skipBlank_blank {t : Placed} (h : t.kind = .whitespace) (rest : Tokens) :
    Tokens.skipBlank (t :: rest) = Tokens.skipBlank rest := by
  have hb : Tokens.isBlank t = true := by
    rw [Tokens.isBlank, Token.isWhitespace, beq_iff_eq]
    exact h
  rw [Tokens.skipBlank, List.dropWhile_cons, if_pos hb]
  rfl

/-- The content of a block: the end of the input, the closing brace, a semicolon, or a declaration. -/
theorem declarations_eq (st : Setting) (s : Tokens) :
    declarations st s = match Tokens.skipBlank s with
      | [] => ⟨[], [st.problem ⟨.missingCloseBrace, none⟩], []⟩
      | t :: rest =>
        if t.kind = .closing .brace then ⟨[t.leaf], [], rest⟩
        else if t.kind = .semicolon then (declarations st rest).cons t.leaf
        else
          match declaration (t :: rest) with
          | .accepted d left => (declarations st left).cons d
          | .rejected f left =>
            ((declarations st (skipDeclaration 0 left).rest).cons
              (.node .error (st.position left) (skipDeclaration 0 left).leaves)).report
                [st.problem f] := by
  rw [declarations]
  split
  · rename_i h
    rw [h]
  · rename_i t rest h
    simp only [h]
    split
    · rfl
    · split
      · rfl
      · split
        · rename_i h'
          simp only [h']
        · rename_i h'
          simp only [h']

/-- The content of a media block: the end of the input, the closing brace, an at-rule that is not
    read, a semicolon, or a rule. -/
theorem mediaBlock_eq (st : Setting) (s : Tokens) :
    mediaBlock st s = match Tokens.skipBlank s with
      | [] => ⟨[], [st.problem ⟨.missingCloseBrace, none⟩], []⟩
      | t :: rest =>
        if t.kind = .closing .brace then ⟨[t.leaf], [], rest⟩
        else if (keyword? t.kind).isSome then
          ((mediaBlock st (unknownAtRule t rest).rest).cons (unknownAtRule t rest).result).report
            (unknownAtRule t rest).problems
        else if t.kind = .semicolon then
          ((mediaBlock st rest).cons (strayToken st "rule" t rest).result).report
            (strayToken st "rule" t rest).problems
        else if (rule st (t :: rest)).result.2 then
          ⟨[(rule st (t :: rest)).result.1], (rule st (t :: rest)).problems,
            (rule st (t :: rest)).rest⟩
        else
          ((mediaBlock st (rule st (t :: rest)).rest).cons (rule st (t :: rest)).result.1).report
            (rule st (t :: rest)).problems := by
  rw [mediaBlock]
  split
  · rename_i h
    rw [h]
  · rename_i t rest h
    simp only [h]
    rfl

/-- The statements of a stylesheet. -/
theorem statements_eq (st : Setting) (s : Tokens) :
    statements st s = match Tokens.skipBlank s with
      | [] => ⟨[], [], []⟩
      | t :: rest =>
        ((statements st (statement st t rest).rest).cons (statement st t rest).result).report
          (statement st t rest).problems := by
  rw [statements]
  split
  · rename_i h
    rw [h]
  · rename_i t rest h
    simp only [h]

/-- The conditions of a compound. -/
theorem conditions_eq (s : Tokens) :
    conditions s = if s.startsWith startsCondition then
      match condition s with
        | .rejected e rest => .rejected e rest
        | .accepted c rest => (conditions rest).map (c :: ·)
      else .accepted [] s := by
  rw [conditions]
  split
  · split
    · rename_i h
      simp only [h]
    · rename_i h
      simp only [h]
  · rfl

/-- Further compounds. -/
theorem selectorTail_eq (s : Tokens) :
    selectorTail s = match combinator? s with
      | .rejected e rest => .rejected e rest
      | .accepted none rest => .accepted [] rest
      | .accepted (some combinator) between =>
        match compound between with
        | .rejected e rest => .rejected e rest
        | .accepted part rest => (selectorTail rest).map (combinator :: part :: ·) := by
  rw [selectorTail]
  split
  · rename_i h
    simp only [h]
  · rename_i h
    simp only [h]
  · rename_i h
    simp only [h]
    split
    · rename_i h'
      simp only [h']
    · rename_i h'
      simp only [h']

/-- Further selectors. -/
theorem selectorListTail_cons (comma : Placed) (rest : Tokens) :
    selectorListTail (comma :: rest) = if comma.kind = .comma then
      match selector (Tokens.skipBlank rest) with
        | .rejected e rest => .rejected e rest
        | .accepted next rest => (selectorListTail rest).map (comma.leaf :: next :: ·)
      else .accepted [] (comma :: rest) := by
  rw [selectorListTail]
  split
  · split
    · rename_i h
      simp only [h]
    · rename_i h
      simp only [h]
  · rfl

/-- Further queries. -/
theorem furtherQueries_cons (comma : Placed) (rest : Tokens) :
    furtherQueries (comma :: rest) = if comma.kind = .comma then
      match mediaQuery rest with
        | .rejected e rest => .rejected e rest
        | .accepted next rest => (furtherQueries rest).map (comma.leaf :: next :: ·)
      else .accepted [] (comma :: rest) := by
  rw [furtherQueries]
  split
  · split
    · rename_i h
      simp only [h]
    · rename_i h
      simp only [h]
  · rfl

/-- Further features of a query. -/
theorem furtherFeatures_eq (s : Tokens) :
    furtherFeatures s = if (Tokens.skipBlank s).startsWith isAnd then
      match furtherFeature (Tokens.skipBlank s) with
        | .rejected e rest => .rejected e rest
        | .accepted feature rest => (furtherFeatures rest).map (feature ++ ·)
      else .accepted [] (Tokens.skipBlank s) := by
  rw [furtherFeatures]
  split
  · split
    · rename_i h
      simp only [h]
    · rename_i h
      simp only [h]
  · rfl

end Stylesheet.Grammar
