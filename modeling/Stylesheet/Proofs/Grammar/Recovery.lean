import Stylesheet.Grammar.Statement

/-!
# Where the parser recovers

A recovery is a place where a production was given up: where it began, where it stopped, and where
reading went on. `recoveries` follows the three loops of the grammar and lists them in order. The
tokens between the last two places are skipped; those between the first two are abandoned, since
the production that took them gives no tree.
-/

namespace Stylesheet.Grammar

/-- What was left to read when a production began, when it stopped, and when reading went on. -/
structure Recovery where
  start : Tokens
  stop : Tokens
  resume : Tokens

/-- The tokens of `s` in front of `rest`, which is an end of it. -/
def inFrontOf (s rest : Tokens) : Tokens := s.take (s.length - rest.length)

namespace Recovery

/-- The tokens that the production took before it stopped. -/
def abandoned (r : Recovery) : Tokens := inFrontOf r.start r.stop

/-- The tokens that were skipped where it stopped. -/
def skipped (r : Recovery) : Tokens := inFrontOf r.stop r.resume

end Recovery

/-- The tokens that were abandoned. -/
def abandonedIn (rs : List Recovery) : Tokens := rs.flatMap Recovery.abandoned

/-- The numbers of the skipped tokens. -/
def skippedIn (rs : List Recovery) : List Nat := rs.flatMap fun r => r.skipped.map Placed.index

theorem inFrontOf_append (taken rest : Tokens) : inFrontOf (taken ++ rest) rest = taken := by
  rw [inFrontOf, List.length_append, Nat.add_sub_cancel, List.take_left]

/-! ## The loops -/

/-- A declaration or a token in its place. -/
def declarationRecoveries (s : Tokens) : List Recovery :=
  have hs := skipBlank_length_le s
  match h : Tokens.skipBlank s with
  | [] => []
  | t :: rest =>
    have ht : rest.length < s.length := by
      rw [h] at hs
      exact hs
    if hb : t.kind = .closing .brace then []
    else if t.kind = .semicolon then declarationRecoveries rest
    else
      match hd : declaration (t :: rest) with
      | .accepted d left =>
        have : left.length < s.length :=
          Nat.lt_of_lt_of_le (declaration_consumes _ d left hd) ht
        declarationRecoveries left
      | .rejected _ left =>
        have : (skipDeclaration 0 left).rest.length < s.length :=
          Nat.lt_of_le_of_lt (skipDeclaration_rejected hd hb).length_le ht
        ⟨t :: rest, left, (skipDeclaration 0 left).rest⟩ ::
          declarationRecoveries (skipDeclaration 0 left).rest
termination_by s.length

/-- In a style rule: in its block, or in front of it. -/
def ruleRecoveries (s : Tokens) : List Recovery :=
  match rulePrelude s with
  | .accepted _ left => declarationRecoveries left
  | .rejected _ left => [⟨s, left, (skipRule 0 left).rest⟩]

/-- A token that begins no statement is skipped by itself. -/
def strayRecovery (t : Placed) (rest : Tokens) : Recovery := ⟨t :: rest, t :: rest, rest⟩

/-- In the block of a media rule. -/
def mediaRecoveries (st : Setting) (s : Tokens) : List Recovery :=
  have hs := skipBlank_length_le s
  match h : Tokens.skipBlank s with
  | [] => []
  | t :: rest =>
    have ht : rest.length < s.length := by
      rw [h] at hs
      exact hs
    if t.kind = .closing .brace then []
    else if (keyword? t.kind).isSome then
      have : (unknownAtRule t rest).rest.length < s.length :=
        Nat.lt_of_le_of_lt (unknownAtRule_length t rest) ht
      mediaRecoveries st (unknownAtRule t rest).rest
    else if t.kind = .semicolon then
      strayRecovery t rest :: mediaRecoveries st rest
    else
      have : (rule st (t :: rest)).rest.length < s.length := Nat.lt_of_le_of_lt rule_length ht
      ruleRecoveries (t :: rest) ++
        if (rule st (t :: rest)).result.2 then [] else mediaRecoveries st (rule st (t :: rest)).rest
termination_by s.length

/-- An at-rule that is given up at `left`. -/
def brokenRecovery (keyword : Placed) (rest left : Tokens) : Recovery :=
  ⟨keyword :: rest, left, (skipStatement 0 left).rest⟩

/-- In an at-rule: in its block, or in front of it. -/
def atRuleRecoveries (st : Setting) (keyword : Placed) (name : String) (rest : Tokens) :
    List Recovery :=
  if sameWord name "namespace" then
    match namespaceContent rest with
    | .accepted _ _ => []
    | .rejected _ left => [brokenRecovery keyword rest left]
  else if sameWord name "font-face" then
    match fontFaceBrace rest with
    | .accepted _ left => declarationRecoveries left
    | .rejected _ left => [brokenRecovery keyword rest left]
  else if sameWord name "media" then
    match mediaPrelude (Tokens.skipBlank rest) with
    | .accepted _ left => mediaRecoveries st left
    | .rejected _ left => [brokenRecovery keyword rest left]
  else []

def statementRecoveries (st : Setting) (t : Placed) (rest : Tokens) : List Recovery :=
  match keyword? t.kind with
  | some name => atRuleRecoveries st t name rest
  | none =>
    if t.kind = .closing .brace ∨ t.kind = .semicolon then [strayRecovery t rest]
    else ruleRecoveries (t :: rest)

def statementsRecoveries (st : Setting) (s : Tokens) : List Recovery :=
  have hs := skipBlank_length_le s
  match h : Tokens.skipBlank s with
  | [] => []
  | t :: rest =>
    have : (statement st t rest).rest.length < s.length := by
      rw [h] at hs
      exact Nat.lt_of_le_of_lt (statement_length st t rest) hs
    statementRecoveries st t rest ++ statementsRecoveries st (statement st t rest).rest
termination_by s.length

/-- All recoveries in a list of tokens, from front to back. -/
def recoveries (source : String) (tokens : List Token) : List Recovery :=
  statementsRecoveries (setting source tokens) (numbered tokens)

/-! ## What a recovery tells -/

/-- A production began at `start` and was rejected at `stop`: a declaration, the selectors of a rule,
    an at-rule behind its keyword, or a token that begins nothing and is skipped as it stands. -/
inductive GivenUp : Recovery → Prop
  | declaration {s left resume : Tokens} {f : Fault} (h : declaration s = .rejected f left) :
      GivenUp ⟨s, left, resume⟩
  | rule {s left resume : Tokens} {f : Fault} (h : rulePrelude s = .rejected f left) :
      GivenUp ⟨s, left, resume⟩
  | namespaceRule (keyword : Placed) {s left resume : Tokens} {f : Fault}
      (h : namespaceContent s = .rejected f left) : GivenUp ⟨keyword :: s, left, resume⟩
  | fontFaceRule (keyword : Placed) {s left resume : Tokens} {f : Fault}
      (h : fontFaceBrace s = .rejected f left) : GivenUp ⟨keyword :: s, left, resume⟩
  | mediaRule (keyword : Placed) {s left resume : Tokens} {f : Fault}
      (h : mediaPrelude s.skipBlank = .rejected f left) : GivenUp ⟨keyword :: s, left, resume⟩
  | stray (t : Placed) (rest : Tokens) : GivenUp (strayRecovery t rest)

theorem declarationRecoveries_givenUp (s : Tokens) : ∀ r ∈ declarationRecoveries s, GivenUp r := by
  fun_induction declarationRecoveries s with
  | case1 | case2 => simp
  | case3 _ _ _ _ _ _ _ _ ih => exact ih
  | case4 _ _ _ _ _ _ _ _ _ _ _ _ ih => exact ih
  | case5 s _ t rest h _ hb hs f left hd _ ih =>
    intro r hr
    rcases List.mem_cons.1 hr with e | hr
    · rw [e]
      exact .declaration hd
    · exact ih r hr

theorem ruleRecoveries_givenUp (s : Tokens) : ∀ r ∈ ruleRecoveries s, GivenUp r := by
  intro r hr
  unfold ruleRecoveries at hr
  split at hr
  · exact declarationRecoveries_givenUp _ r hr
  · rename_i h
    rw [List.mem_singleton.1 hr]
    exact .rule h

theorem mediaRecoveries_givenUp (st : Setting) (s : Tokens) :
    ∀ r ∈ mediaRecoveries st s, GivenUp r := by
  fun_induction mediaRecoveries st s with
  | case1 | case2 => simp
  | case3 _ _ _ _ _ _ _ _ _ ih => exact ih
  | case4 s _ t rest _ _ _ _ _ ih =>
    intro r hr
    rcases List.mem_cons.1 hr with e | hr
    · rw [e]
      exact .stray t rest
    · exact ih r hr
  | case5 s _ t rest _ _ _ _ _ _ ih =>
    intro r hr
    rcases List.mem_append.1 hr with hr | hr
    · exact ruleRecoveries_givenUp _ r hr
    · split at hr
      · exact absurd hr List.not_mem_nil
      · exact ih r hr

theorem atRuleRecoveries_givenUp (st : Setting) (keyword : Placed) (name : String)
    (rest : Tokens) : ∀ r ∈ atRuleRecoveries st keyword name rest, GivenUp r := by
  intro r hr
  unfold atRuleRecoveries at hr
  split at hr
  · split at hr
    · exact absurd hr List.not_mem_nil
    · rename_i h
      rw [List.mem_singleton.1 hr]
      exact .namespaceRule keyword h
  · split at hr
    · split at hr
      · exact declarationRecoveries_givenUp _ r hr
      · rename_i h
        rw [List.mem_singleton.1 hr]
        exact .fontFaceRule keyword h
    · split at hr
      · split at hr
        · exact mediaRecoveries_givenUp st _ r hr
        · rename_i h
          rw [List.mem_singleton.1 hr]
          exact .mediaRule keyword h
      · exact absurd hr List.not_mem_nil

theorem statementRecoveries_givenUp (st : Setting) (t : Placed) (rest : Tokens) :
    ∀ r ∈ statementRecoveries st t rest, GivenUp r := by
  intro r hr
  unfold statementRecoveries at hr
  split at hr
  · exact atRuleRecoveries_givenUp st t _ rest r hr
  · split at hr
    · rw [List.mem_singleton.1 hr]
      exact .stray t rest
    · exact ruleRecoveries_givenUp _ r hr

/-- Nothing is abandoned but what a rejected production took. -/
theorem recoveries_givenUp (source : String) (tokens : List Token) :
    ∀ r ∈ recoveries source tokens, GivenUp r := by
  unfold recoveries
  fun_induction statementsRecoveries (setting source tokens) (numbered tokens) with
  | case1 => simp
  | case2 s _ t rest _ _ ih =>
    intro r hr
    rcases List.mem_append.1 hr with hr | hr
    · exact statementRecoveries_givenUp _ t rest r hr
    · exact ih r hr

end Stylesheet.Grammar
