import Stylesheet.Proofs.Cursor.Declaration
import Stylesheet.Proofs.Cursor.MediaQuery
import Stylesheet.Proofs.Cursor.Selector
import Stylesheet.Proofs.Grammar.Statement

/-!
# Statements through a cursor

Rules and at-rules are attempts in front and runs behind: where the attempt stops, what it did not
take is reported and skipped. The whole stylesheet is what the productions read (`parse_eq`).
-/

namespace Stylesheet.Cursor

open Grammar Production

variable {i : Input} {t : Placed} {s rest : Tokens} {ps : List Problem}

/-! ## Rules -/

/-- What a rule gives, where it stops at what does not fit. -/
def ruleParsed (i : Input) (s : Tokens) : Parsed (Except SyntaxError Tree) :=
  match rulePrelude s with
  | .accepted (selectors, brace) rest =>
    (Grammar.declarationBlock i.setting brace rest).map fun block =>
      .ok (.node .rule selectors.first [selectors, block])
  | .rejected f rest => ⟨.error (i.error f), [], rest⟩

theorem Gives.ruleInner : Gives i ruleInner.run s ps (ruleParsed i s) := by
  apply of_leaves
  intro hs
  have hsel : Follows i selectorList s ps (selectorsAhead s) := follows_selectorList
  rw [Cursor.ruleInner, ruleParsed, rulePrelude_eq, bind_apply]
  apply Gives.look
  cases h : selectorsAhead s with
  | rejected f left =>
    rw [h] at hsel
    exact Gives.stops hsel
  | accepted selectors left =>
    rw [h] at hsel
    obtain ⟨hl, brace, left, rfl, hk⟩ := selectorsAhead_accepted h
    dsimp only
    rw [bind_apply, take_cons, if_pos hk]
    obtain ⟨t, behind, rfl, hfirst⟩ := selectorList_heads s selectors _ hl
    rw [pos_cons hs, ← hfirst]
    exact Gives.behind hsel (Gives.declarationBlock.lift_map
      fun block => Tree.node .rule selectors.first [selectors, block])

theorem Gives.rule : Gives i rule s ps (Grammar.rule i.setting s) := by
  have h : Gives i Cursor.ruleInner.run s ps (ruleParsed i s) := Gives.ruleInner
  rw [Cursor.rule, Grammar.rule]
  rw [ruleParsed] at h
  cases hr : rulePrelude s with
  | accepted p rest =>
    rw [hr] at h
    exact h.returns rfl
  | rejected f rest =>
    rw [hr] at h
    exact Gives.step h (Gives.bind (u := ⟨_, [], _⟩) (Gives.report f) Gives.recoverRule)

/-! ## At-rules -/

theorem Gives.unknownAtRule : Gives i unknownAtRule (t :: rest) ps (Grammar.unknownAtRule t rest) :=
  Gives.step .token (Gives.step (Gives.skipStatement [] 0) (.pure _))

/-- The semicolon of a namespace rule, or what is wrong without it. -/
def namespaceEndParsed (st : Setting) (address : Placed) (s : Tokens) : Parsed (Option Tree) :=
  match take? (· == .semicolon) s with
  | .accepted (some semicolon) rest => ⟨some semicolon, [], rest⟩
  | _ => ⟨none, [st.problem ⟨.missingSemicolon, some (.point address.token.span.stop)⟩], s⟩

theorem Gives.namespaceEnd (ht : i.tokens[t.index]? = some t.token) :
    Gives i (namespaceEnd t.index) s ps (namespaceEndParsed i.setting t s) := by
  rw [Cursor.namespaceEnd, namespaceEndParsed]
  obtain ⟨semicolon, rest, h⟩ := take?_accepts (· == .semicolon) s
  rw [h]
  apply Gives.step (.optional rfl h)
  cases semicolon with
  | some semicolon => exact .pure _
  | none =>
    rw [take?_none h]
    apply Gives.get
    rw [spanOf_before ht]
    exact Gives.bind (u := ⟨none, [], s⟩)
      (Gives.report ⟨.missingSemicolon, some (.point t.token.span.stop)⟩) (.pure none)

/-- What a namespace rule gives, where it stops at what does not fit. -/
def namespaceParsed (i : Input) (keyword : Placed) (rest : Tokens) : Parsed (Except SyntaxError Tree) :=
  match namespaceContent rest with
  | .accepted (trees, missing) left =>
    ⟨.ok (.node .namespaceRule keyword.index (keyword.leaf :: trees)),
      (missing.map i.setting.problem).toList, left⟩
  | .rejected f left => ⟨.error (i.error f), [], left⟩

theorem Gives.namespaceRule : Gives i namespaceRule.run (t :: rest) ps (namespaceParsed i t rest) := by
  rw [Cursor.namespaceRule, namespaceParsed]
  apply Gives.behind (.lift .token)
  apply Gives.behind .blanks
  obtain ⟨nsPrefix, s₁, h₁⟩ := take?_accepts TokenKind.isIdent (Tokens.skipBlank rest)
  apply Gives.behind (.lift (.optional rfl h₁))
  have hb : nsPrefix = none → Tokens.skipBlank s₁ = s₁ := by
    rintro rfl
    rw [take?_none h₁]
    exact skipBlank_skipBlank rest
  apply Gives.behind (.blanksBehind hb)
  apply Gives.of_leaves
  intro hs
  have haddress : Follows i (expect isAddress (·.unexpected "namespace URI")) (Tokens.skipBlank s₁) ps
      (take isAddress (fun s => .unexpectedToken "namespace URI" s.found) (Tokens.skipBlank s₁)) :=
    .expect rfl fun hs => unexpected_before hs _ _
  simp only [namespaceContent, bind_apply, blank_apply, h₁, ahead_apply]
  cases h₂ : take isAddress (fun s => .unexpectedToken "namespace URI" s.found) (Tokens.skipBlank s₁) with
  | rejected f left =>
    rw [h₂] at haddress
    exact Gives.stops haddress
  | accepted address left =>
    rw [h₂] at haddress
    obtain ⟨u, hu, rfl⟩ := take_eq_accepted h₂
    rw [hu] at hs
    apply Gives.behind haddress
    apply Gives.behind .blanks
    have hsemi : Gives i (Cursor.namespaceEnd u.index) (Tokens.skipBlank left) ps
        (namespaceEndParsed i.setting u (Tokens.skipBlank left)) := .namespaceEnd hs.getElem?_index
    have hend := hsemi.lift_map fun semicolon => Tree.node .namespaceRule t.index (t.leaf ::
        ((nsPrefix.map (single .namespacePrefix)).toList ++ u.leaf :: semicolon.toList))
    rw [namespaceEndParsed] at hend
    obtain ⟨semicolon, r, h₃⟩ := take?_accepts (· == .semicolon) (Tokens.skipBlank left)
    rw [h₃] at hend
    dsimp only
    rw [h₃, hu]
    cases semicolon with
    | some semicolon => exact hend
    | none =>
      rw [take?_none h₃]
      exact hend

/-- What a font face rule gives, where it stops at what does not fit. -/
def fontFaceParsed (i : Input) (keyword : Placed) (rest : Tokens) : Parsed (Except SyntaxError Tree) :=
  match fontFaceBrace rest with
  | .accepted brace left =>
    (Grammar.declarationBlock i.setting brace left).map fun block =>
      .ok (.node .fontFaceRule keyword.index [keyword.leaf, block])
  | .rejected f left => ⟨.error (i.error f), [], left⟩

theorem Gives.fontFaceRule : Gives i fontFaceRule.run (t :: rest) ps (fontFaceParsed i t rest) := by
  rw [Cursor.fontFaceRule, fontFaceParsed, fontFaceBrace, bind_apply, blank_apply]
  apply Gives.behind (.lift .token)
  apply Gives.behind .blanks
  have hbrace : Follows i (refuse (fun c => !(c.kind == .opening .brace)) (·.unexpected "'\x7b'"))
      (Tokens.skipBlank rest) ps (facing (· == .opening .brace)
        (fun s => .unexpectedToken "'\x7b'" s.found) (Tokens.skipBlank rest)) :=
    .facing rfl fun hs => unexpected_before hs _ _
  cases hs : Tokens.skipBlank rest with
  | nil =>
    rw [hs] at hbrace
    exact Gives.stops hbrace
  | cons u left =>
    rw [hs, facing_cons] at hbrace
    dsimp only
    rw [take_cons]
    by_cases hk : (u.kind == .opening .brace) = true
    · rw [if_pos hk] at hbrace ⊢
      exact Gives.behind hbrace (Gives.declarationBlock.lift_map
        fun block => Tree.node .fontFaceRule t.index [t.leaf, block])
    · rw [if_neg hk] at hbrace ⊢
      exact Gives.stops hbrace

/-! ## Media rules -/

/-- A round of a media block: its closing brace or the end of the input, an at-rule, a stray semicolon,
    or a rule. -/
def mediaStep (st : Setting) (children : List Tree) (s : Tokens) :
    Parsed (Step (List Tree) (List Tree)) :=
  match s.skipBlank with
  | [] => ⟨.done children, [st.problem ⟨.missingCloseBrace, none⟩], []⟩
  | t :: rest =>
    if t.kind = .closing .brace then ⟨.done (children ++ [t.leaf]), [], rest⟩
    else if (keyword? t.kind).isSome then
      (Grammar.unknownAtRule t rest).map fun tree => .again (children ++ [tree])
    else if t.kind = .semicolon then
      (Grammar.strayToken st "rule" t rest).map fun tree => .again (children ++ [tree])
    else
      (Grammar.rule st (t :: rest)).map fun p =>
        if p.2 then .done (children ++ [p.1]) else .again (children ++ [p.1])

theorem mediaRounds (i : Input) : Rounds i mediaRound (mediaStep i.setting) where
  gives children s ps := by
    apply Gives.pastBlanks
    intro hs
    rw [mediaStep]
    generalize Tokens.skipBlank s = r at hs
    cases r with
    | nil =>
      rw [kind_nil hs, atEof_before hs]
      exact Gives.reportOpen (Step.done children) hs
    | cons t rest =>
      rw [kind_cons hs, atEof_before hs]
      dsimp only
      by_cases hc : t.kind = .closing .brace
      · rw [if_pos hc, if_pos (beq_iff_eq.2 hc)]
        exact Gives.token.step (.pure _)
      rw [if_neg hc, if_neg (mt beq_iff_eq.1 hc), if_neg (by simp)]
      by_cases hat : (keyword? t.kind).isSome = true
      · rw [if_pos hat, if_pos hat]
        exact Gives.unknownAtRule.map _
      rw [if_neg hat, if_neg hat]
      by_cases hsemi : t.kind = .semicolon
      · rw [if_pos hsemi, if_pos (beq_iff_eq.2 hsemi)]
        exact (Gives.strayToken "rule").map _
      rw [if_neg hsemi, if_neg (mt beq_iff_eq.1 hsemi)]
      apply Gives.returns Gives.rule
      split <;> rfl
  shorter children s next h := by
    have hl := skipBlank_length_le s
    rw [mediaStep] at h ⊢
    cases hk : Tokens.skipBlank s with
    | nil =>
      rw [hk] at h
      contradiction
    | cons t rest =>
      rw [hk] at h hl
      rw [List.length_cons] at hl
      dsimp only at h ⊢
      by_cases hc : t.kind = .closing .brace
      · rw [if_pos hc] at h
        contradiction
      rw [if_neg hc]
      by_cases hat : (keyword? t.kind).isSome = true
      · rw [if_pos hat]
        exact Nat.lt_of_le_of_lt (unknownAtRule_length t rest) hl
      rw [if_neg hat]
      by_cases hsemi : t.kind = .semicolon
      · rw [if_pos hsemi]
        exact hl
      rw [if_neg hsemi]
      exact Nat.lt_of_le_of_lt rule_length hl

theorem Gives.mediaBlock (children : List Tree) :
    Gives i (mediaBlock children) s ps ((Grammar.mediaBlock i.setting s).map (children ++ ·)) := by
  apply (mediaRounds i).loop (p := fun children s => (Grammar.mediaBlock i.setting s).map (children ++ ·))
  intro children s
  rw [mediaBlock_eq, mediaStep]
  cases Tokens.skipBlank s with
  | nil => simp [Parsed.map]
  | cons t rest =>
    dsimp only
    by_cases hc : t.kind = .closing .brace
    · rw [if_pos hc, if_pos hc]
      rfl
    rw [if_neg hc, if_neg hc]
    by_cases hat : (keyword? t.kind).isSome = true
    · rw [if_pos hat, if_pos hat]
      simp [Parsed.map, Parsed.report, Parsed.cons]
    rw [if_neg hat, if_neg hat]
    by_cases hsemi : t.kind = .semicolon
    · rw [if_pos hsemi, if_pos hsemi]
      simp [Parsed.map, Parsed.report, Parsed.cons, Grammar.strayToken]
    rw [if_neg hsemi, if_neg hsemi]
    by_cases hcl : (Grammar.rule i.setting (t :: rest)).result.2 = true
    · simp [Parsed.map, hcl]
    · simp [Parsed.map, Parsed.report, Parsed.cons, hcl]

/-- What a media rule gives, where it stops at what does not fit. -/
def mediaParsed (i : Input) (keyword : Placed) (rest : Tokens) : Parsed (Except SyntaxError Tree) :=
  match mediaPrelude (Tokens.skipBlank rest) with
  | .accepted (queries, brace) left =>
    (Grammar.mediaBlock i.setting left).map fun content =>
      .ok (.node .mediaRule keyword.index (keyword.leaf :: queries :: brace :: content))
  | .rejected f left => ⟨.error (i.error f), [], left⟩

theorem Gives.mediaRule : Gives i mediaRule.run (t :: rest) ps (mediaParsed i t rest) := by
  rw [Cursor.mediaRule, mediaParsed, mediaPrelude_eq, bind_apply]
  apply Gives.behind (.lift .token)
  apply Gives.behind .blanks
  have hqueries : Follows i mediaQueryList (Tokens.skipBlank rest) ps
      (queriesAhead (Tokens.skipBlank rest)) := follows_mediaQueryList
  cases h : queriesAhead (Tokens.skipBlank rest) with
  | rejected f left =>
    rw [h] at hqueries
    exact Gives.stops hqueries
  | accepted queries left =>
    rw [h] at hqueries
    obtain ⟨brace, left, rfl, hk⟩ := brace_of_queriesAhead h
    dsimp only
    rw [bind_apply, take_cons, if_pos hk]
    apply Gives.behind hqueries
    apply Gives.behind (.lift .token)
    exact (Gives.mediaBlock [t.leaf, queries, brace.leaf]).lift_map (Tree.node .mediaRule t.index)

/-! ## Stylesheets -/

/-- An at-rule that is read. -/
theorem Gives.atRule_ok {name : String} {tree : Tree} {found : List Problem}
    (h : Gives i (knownAtRule name).run s ps ⟨.ok tree, found, rest⟩) :
    Gives i (atRule name) s ps ⟨tree, found, rest⟩ := by
  rw [Cursor.atRule]
  apply Gives.get
  exact Gives.returns h rfl

/-- An at-rule that stops at what does not fit. -/
theorem Gives.atRule_error {name : String} {f : Fault}
    (h : Gives i (knownAtRule name).run (t :: s) ps ⟨.error (i.error f), [], rest⟩) :
    Gives i (atRule name) (t :: s) ps (brokenAtRule i.setting t f rest) := by
  apply of_leaves
  intro hs
  rw [Cursor.atRule]
  apply Gives.get
  rw [pos_cons hs]
  apply Gives.step h
  exact Gives.bind (u := ⟨_, [], _⟩) (.report f) (Gives.step (.skipStatement [] 0) (.pure _))

theorem Gives.atRule (name : String) :
    Gives i (atRule name) (t :: rest) ps (Grammar.atRule i.setting t name rest) := by
  rw [Grammar.atRule]
  by_cases hn : sameWord name "namespace" = true
  · rw [if_pos hn]
    have h : Gives i (knownAtRule name).run (t :: rest) ps (namespaceParsed i t rest) := by
      rw [knownAtRule, if_pos hn]
      exact Gives.namespaceRule
    rw [namespaceParsed] at h
    cases hr : namespaceContent rest with
    | accepted content left =>
      rw [hr] at h
      exact h.atRule_ok
    | rejected f left =>
      rw [hr] at h
      exact h.atRule_error
  rw [if_neg hn]
  by_cases hf : sameWord name "font-face" = true
  · rw [if_pos hf]
    have h : Gives i (knownAtRule name).run (t :: rest) ps (fontFaceParsed i t rest) := by
      rw [knownAtRule, if_neg hn, if_pos hf]
      exact Gives.fontFaceRule
    rw [fontFaceParsed] at h
    cases hr : fontFaceBrace rest with
    | accepted brace left =>
      rw [hr] at h
      exact h.atRule_ok
    | rejected f left =>
      rw [hr] at h
      exact h.atRule_error
  rw [if_neg hf]
  by_cases hm : sameWord name "media" = true
  · rw [if_pos hm]
    have h : Gives i (knownAtRule name).run (t :: rest) ps (mediaParsed i t rest) := by
      rw [knownAtRule, if_neg hn, if_neg hf, if_pos hm]
      exact Gives.mediaRule
    rw [mediaParsed] at h
    cases hr : mediaPrelude (Tokens.skipBlank rest) with
    | accepted prelude left =>
      rw [hr] at h
      exact h.atRule_ok
    | rejected f left =>
      rw [hr] at h
      exact h.atRule_error
  · rw [if_neg hm]
    apply Gives.atRule_ok
    rw [knownAtRule, if_neg hn, if_neg hf, if_neg hm]
    exact Gives.unknownAtRule.ok

theorem Gives.statement :
    Gives i statement (t :: rest) ps (Grammar.statement i.setting t rest) := by
  apply of_leaves
  intro hs
  rw [Cursor.statement, Grammar.statement]
  apply Gives.get
  rw [kind_cons hs]
  cases keyword? t.kind with
  | some name => exact .atRule name
  | none =>
    simp only [Bool.or_eq_true, beq_iff_eq]
    split
    · exact .strayToken "rule or at-rule"
    · exact Gives.rule.map _

/-- A round of a stylesheet: a statement, or the end of the input. -/
def statementStep (st : Setting) (children : List Tree) (s : Tokens) :
    Parsed (Step (List Tree) (List Tree)) :=
  match s.skipBlank with
  | [] => ⟨.done children, [], []⟩
  | t :: rest => (Grammar.statement st t rest).map fun tree => .again (children ++ [tree])

theorem statementRounds (i : Input) : Rounds i statementRound (statementStep i.setting) where
  gives children s ps := by
    apply Gives.pastBlanks
    intro hs
    rw [statementStep, atEof_before hs]
    cases Tokens.skipBlank s with
    | nil => exact .pure _
    | cons t rest => exact Gives.statement.map _
  shorter children s next h := by
    have hl := skipBlank_length_le s
    rw [statementStep] at h ⊢
    cases hk : Tokens.skipBlank s with
    | nil =>
      rw [hk] at h
      contradiction
    | cons t rest =>
      rw [hk, List.length_cons] at hl
      exact Nat.lt_of_le_of_lt (statement_length i.setting t rest) hl

theorem Gives.statements (children : List Tree) :
    Gives i (loop statementRound children) s ps
      ((Grammar.statements i.setting s).map (children ++ ·)) := by
  apply (statementRounds i).loop
    (p := fun children s => (Grammar.statements i.setting s).map (children ++ ·))
  intro children s
  rw [statements_eq, statementStep]
  cases Tokens.skipBlank s with
  | nil => simp [Parsed.map]
  | cons t rest => simp [Parsed.map, Parsed.report, Parsed.cons]

theorem Gives.stylesheet : Gives i stylesheet s ps
    ((Grammar.statements i.setting s).map (.node .stylesheet i.stop)) := by
  have h : Gives i (loop statementRound []) s ps _ := Gives.statements []
  have hr : (Grammar.statements i.setting s).rest = [] := statements_rest i.setting s
  generalize Grammar.statements i.setting s = r at h hr
  obtain ⟨children, found, rest⟩ := r
  subst hr
  rw [Cursor.stylesheet, Parsed.map, ← List.append_nil found]
  exact Gives.bind (u := ⟨Tree.node .stylesheet i.stop children, [], []⟩) h (.get (.pure _))

/-- Reading a list of tokens through a cursor gives the tree and the problems of the productions, and
    the cursor stands at the first `eof` in the end. -/
theorem parse_eq (source : String) {tokens : List Token} (h : EndsInEof tokens) :
    parse source tokens = some ((parseTokens source tokens).tree,
      ⟨⟨source, tokens⟩, tokens.findIdx Token.isEof, (parseTokens source tokens).problems⟩) := by
  let i : Input := ⟨source, tokens⟩
  have hs : i.Leaves i.ahead := ⟨h, List.suffix_refl _⟩
  have hread : Gives i Cursor.stylesheet i.ahead [] _ := Gives.stylesheet
  obtain ⟨-, e⟩ := hread hs
  have hstart : i.before i.ahead [] = ⟨i, 0, []⟩ := by
    rw [Input.before, i.length_ahead, Nat.sub_self]
  have hend : (Grammar.statements i.setting i.ahead).rest = [] := statements_rest i.setting i.ahead
  rw [hstart, Parsed.rest_map, hend] at e
  rw [parse, parseTokens]
  exact e.trans (by rw [← i.length_ahead]; rfl)

end Stylesheet.Cursor
