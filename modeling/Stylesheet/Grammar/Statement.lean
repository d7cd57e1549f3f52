import Stylesheet.Grammar.Declaration
import Stylesheet.Grammar.MediaQuery
import Stylesheet.Grammar.Selector

/-!
# Statements

    stylesheet   statement*
    statement    namespace rule | font face rule | media rule | unknown at-rule | rule
    namespace    '@namespace' IDENT? (STRING | URL) ';'
    font face    '@font-face' block
    media        '@media' query list '{' (rule | unknown at-rule)* '}'
    rule         selector list block

Every list of tokens has a tree: a statement that does not fit is reported, skipped, and kept as a
node of skipped tokens, and the stylesheet goes on behind it. Only the tokens before the first `eof`
are read. A cursor over all tokens comes to the same tree (`Cursor.parse`).
-/

namespace Stylesheet

namespace Grammar

open Production

def isAddress : TokenKind → Bool
  | .string _ | .url _ => true
  | _ => false

/-- The name of an at-keyword. -/
def keyword? : TokenKind → Option String
  | .atKeyword name => some name
  | _ => none

/-- A namespace rule behind its keyword: its trees, and a fault if the semicolon is missing. -/
def namespaceContent : Production (List Tree × Option Fault) := do
  blank
  let nsPrefix ← take? TokenKind.isIdent
  blank
  let s ← ahead
  let address ← take isAddress fun s => .unexpectedToken "namespace URI" s.found
  blank
  let semicolon ← take? (· == .semicolon)
  let trees := (nsPrefix.map (single .namespacePrefix)).toList ++ address :: semicolon.toList
  let missing : Fault := ⟨.missingSemicolon, s.head?.map fun t => .point t.token.span.stop⟩
  return (trees, if semicolon.isNone then some missing else none)

/-- The brace of a font face rule, behind its keyword. -/
def fontFaceBrace : Production Tree := do
  blank
  take (· == .opening .brace) fun s => .unexpectedToken "'\x7b'" s.found

theorem namespaceContent_advances : Advances namespaceContent :=
  .bind .blank fun _ => .bind (.take? _) fun _ => .bind .blank fun _ => .bind .ahead fun _ =>
    .bind (.take _ _) fun _ => .bind .blank fun _ => .bind (.take? _) fun _ => .pure _

theorem fontFaceBrace_advances : Advances fontFaceBrace :=
  .bind .blank fun _ => .take _ _

/-- A token that begins no statement. -/
def strayToken (st : Setting) (expected : String) (t : Placed) (rest : Tokens) : Parsed Tree :=
  ⟨.node .error t.index [t.leaf], [st.problem (Tokens.unexpected (t :: rest) expected)], rest⟩

/-- An at-rule that is not read: its keyword and what follows up to its end. -/
def unknownAtRule (keyword : Placed) (rest : Tokens) : Parsed Tree :=
  let skipped := skipStatement 0 rest
  ⟨.node .unknownAtRule keyword.index (keyword.leaf :: skipped.leaves), [], skipped.rest⟩

/-- An at-rule that does not fit, from the place where it went wrong. -/
def brokenAtRule (st : Setting) (keyword : Placed) (f : Fault) (rest : Tokens) : Parsed Tree :=
  let skipped := skipStatement 0 rest
  ⟨.node .error keyword.index skipped.leaves, [st.problem f], skipped.rest⟩

/-- A style rule, and whether skipping it took the brace of the block around it. -/
def rule (st : Setting) (s : Tokens) : Parsed (Tree × Bool) :=
  match rulePrelude s with
  | .accepted (selectors, brace) rest =>
    (declarationBlock st brace rest).map fun block =>
      (.node .rule selectors.first [selectors, block], false)
  | .rejected f rest =>
    let skipped := skipRule 0 rest
    ⟨(.node .error (st.position rest) skipped.leaves, closesOuter rest), [st.problem f], skipped.rest⟩

theorem rule_length {st : Setting} {t : Placed} {rest : Tokens} :
    (rule st (t :: rest)).rest.length ≤ rest.length := by
  have hs := rulePrelude_advances (t :: rest)
  unfold rule
  split
  · rename_i brace left h
    have := rulePrelude_consumes _ _ _ h
    have := (declarations_suffix st left).length_le
    simp only [declarationBlock, Parsed.rest_map, List.length_cons] at *
    omega
  · rename_i f left h
    rw [h] at hs
    rcases List.suffix_cons_iff.1 hs with e | e
    · change left = t :: rest at e
      rw [e]
      exact (skipRule_suffix_tail t rest 0).length_le
    · exact ((skipRule_suffix left 0).trans e).length_le

theorem unknownAtRule_length (keyword : Placed) (rest : Tokens) :
    (unknownAtRule keyword rest).rest.length ≤ rest.length :=
  (skipStatement_suffix rest 0).length_le

/-- The content of a media block behind its opening brace, with the closing one. -/
def mediaBlock (st : Setting) (s : Tokens) : Parsed (List Tree) :=
  have hs := skipBlank_length_le s
  match h : Tokens.skipBlank s with
  | [] => ⟨[], [st.problem ⟨.missingCloseBrace, none⟩], []⟩
  | t :: rest =>
    have ht : rest.length < s.length := by
      rw [h] at hs
      exact hs
    if t.kind = .closing .brace then ⟨[t.leaf], [], rest⟩
    else if (keyword? t.kind).isSome then
      let p := unknownAtRule t rest
      have : p.rest.length < s.length := Nat.lt_of_le_of_lt (unknownAtRule_length t rest) ht
      ((mediaBlock st p.rest).cons p.result).report p.problems
    else if t.kind = .semicolon then
      let p := strayToken st "rule" t rest
      have : p.rest.length < s.length := ht
      ((mediaBlock st p.rest).cons p.result).report p.problems
    else
      let p := rule st (t :: rest)
      have : p.rest.length < s.length := Nat.lt_of_le_of_lt rule_length ht
      -- a broken rule took the brace of this block with it
      if p.result.2 then ⟨[p.result.1], p.problems, p.rest⟩
      else ((mediaBlock st p.rest).cons p.result.1).report p.problems
termination_by s.length

theorem mediaBlock_length (st : Setting) (s : Tokens) :
    (mediaBlock st s).rest.length ≤ s.length := by
  have hs := skipBlank_length_le s
  fun_induction mediaBlock st s with
  | case1 => exact Nat.zero_le _
  | case2 s _ t rest h ht => exact Nat.le_of_lt ht
  | case3 s _ t rest h ht _ _ p hp ih =>
    exact Nat.le_trans (ih (skipBlank_length_le _)) (Nat.le_of_lt hp)
  | case4 s _ t rest h ht _ _ _ p hp ih =>
    exact Nat.le_trans (ih (skipBlank_length_le _)) (Nat.le_of_lt hp)
  | case5 s _ t rest h ht _ _ _ p hp => exact Nat.le_of_lt hp
  | case6 s _ t rest h ht _ _ _ p hp _ ih =>
    exact Nat.le_trans (ih (skipBlank_length_le _)) (Nat.le_of_lt hp)

/-- An at-rule of a stylesheet behind its keyword. -/
def atRule (st : Setting) (keyword : Placed) (name : String) (rest : Tokens) : Parsed Tree :=
  if sameWord name "namespace" then
    match namespaceContent rest with
    | .accepted (trees, missing) left =>
      ⟨.node .namespaceRule keyword.index (keyword.leaf :: trees),
        (missing.map st.problem).toList, left⟩
    | .rejected f left => brokenAtRule st keyword f left
  else if sameWord name "font-face" then
    match fontFaceBrace rest with
    | .accepted brace left =>
      (declarationBlock st brace left).map fun block =>
        .node .fontFaceRule keyword.index [keyword.leaf, block]
    | .rejected f left => brokenAtRule st keyword f left
  else if sameWord name "media" then
    match mediaPrelude (Tokens.skipBlank rest) with
    | .accepted (queries, brace) left =>
      (mediaBlock st left).map fun content =>
        .node .mediaRule keyword.index (keyword.leaf :: queries :: brace :: content)
    | .rejected f left => brokenAtRule st keyword f left
  else unknownAtRule keyword rest

theorem brokenAtRule_length (st : Setting) (keyword : Placed) (f : Fault) (rest : Tokens) :
    (brokenAtRule st keyword f rest).rest.length ≤ rest.length :=
  (skipStatement_suffix rest 0).length_le

theorem atRule_length (st : Setting) (keyword : Placed) (name : String) (rest : Tokens) :
    (atRule st keyword name rest).rest.length ≤ rest.length := by
  have hn := namespaceContent_advances.length_le rest
  have hf := fontFaceBrace_advances.length_le rest
  have hm := mediaPrelude_advances.length_le (Tokens.skipBlank rest)
  have hk := skipBlank_length_le rest
  unfold atRule
  split
  · split
    · rename_i h
      rw [h] at hn
      exact hn
    · rename_i f left h
      rw [h] at hn
      exact Nat.le_trans (brokenAtRule_length st keyword f left) hn
  · split
    · split
      · rename_i brace left h
        rw [h] at hf
        exact Nat.le_trans (declarations_suffix st left).length_le hf
      · rename_i f left h
        rw [h] at hf
        exact Nat.le_trans (brokenAtRule_length st keyword f left) hf
    · split
      · split
        · rename_i queries brace left h
          rw [h] at hm
          exact Nat.le_trans (mediaBlock_length st left) (Nat.le_trans hm hk)
        · rename_i f left h
          rw [h] at hm
          exact Nat.le_trans (brokenAtRule_length st keyword f left) (Nat.le_trans hm hk)
      · exact unknownAtRule_length keyword rest

/-- The statement that begins at a token which is not blank. -/
def statement (st : Setting) (t : Placed) (rest : Tokens) : Parsed Tree :=
  match keyword? t.kind with
  | some name => atRule st t name rest
  | none =>
    if t.kind = .closing .brace ∨ t.kind = .semicolon then strayToken st "rule or at-rule" t rest
    else (rule st (t :: rest)).map (·.1)

theorem statement_length (st : Setting) (t : Placed) (rest : Tokens) :
    (statement st t rest).rest.length ≤ rest.length := by
  unfold statement
  split
  · exact atRule_length st t _ rest
  · split
    · exact Nat.le_refl _
    · exact rule_length

/-- All statements. -/
def statements (st : Setting) (s : Tokens) : Parsed (List Tree) :=
  have hs := skipBlank_length_le s
  match h : Tokens.skipBlank s with
  | [] => ⟨[], [], []⟩
  | t :: rest =>
    let p := statement st t rest
    have : p.rest.length < s.length := by
      rw [h] at hs
      exact Nat.lt_of_le_of_lt (statement_length st t rest) hs
    ((statements st p.rest).cons p.result).report p.problems
termination_by s.length

/-- The tokens in front of the first `eof`, numbered. -/
def numbered (tokens : List Token) : Tokens :=
  (tokens.zipIdx.map fun (t, i) => ⟨i, t⟩).takeWhile fun t => !t.token.isEof

/-- Where the tokens come from, and where the first `eof` stands. -/
def setting (source : String) (tokens : List Token) : Setting :=
  let stop := (numbered tokens).length
  ⟨source, stop, (tokens[stop]?.map Token.span).getD .nowhere⟩

end Grammar

/-- A tree and the problems found while it was made. -/
structure Parsing where
  tree : Tree
  problems : List Problem

/-- The syntax tree of a list of tokens. -/
def parseTokens (source : String) (tokens : List Token) : Parsing :=
  let st := Grammar.setting source tokens
  let p := Grammar.statements st (Grammar.numbered tokens)
  ⟨.node .stylesheet st.stopIndex p.result, p.problems⟩

end Stylesheet
