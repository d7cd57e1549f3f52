import Stylesheet.Proofs.Grammar.Declaration
import Stylesheet.Proofs.Grammar.MediaQuery
import Stylesheet.Proofs.Grammar.Selector

/-!
# What statements are read from

Rules, at-rules and media blocks, and all statements of a list of tokens (`statements_follows`).
-/

namespace Stylesheet.Grammar

open Computability Production

section

variable {tokens : List Token}

theorem Accepts.namespaceContent :
    Accepts tokens namespaceContent fun taken p =>
      Reads tokens [optional (nodeWith .namespacePrefix (leafOf tokens TokenKind.isIdent)),
        leafOf tokens isAddress, optional (leafOf tokens (· == .semicolon))].prod taken p.1 [] := by
  apply Accepts.bind .blank
  intro _ _ hb
  apply Accepts.bind (.take? _)
  intro v ns hns
  apply Accepts.bind .blank
  intro _ _ hc
  apply Accepts.bind .ahead
  intro taken s ht
  cases ht
  apply Accepts.bind (.take _ _)
  intro _ address haddress
  apply Accepts.bind .blank
  intro _ _ hd
  apply Accepts.bind (.take? _)
  intro _ semicolon hsemicolon
  apply Accepts.pure
  have hspace : Reads tokens (optional (nodeWith .namespacePrefix
      (leafOf tokens TokenKind.isIdent))) v (ns.map (single .namespacePrefix)).toList [] := by
    cases ns with
    | none =>
      cases (show v = [] from hns)
      exact .absent
    | some ns =>
      have hname : Reads tokens (leafOf tokens TokenKind.isIdent) v [ns] [] := hns
      exact (hname.nodeWith (by simp) (fun _ => Or.inl) _).present
  exact (hspace.cons ((haddress.cons (hsemicolon.optional.last.blank hd)).blank hc)).blank hb

theorem Accepts.fontFaceBrace :
    Accepts tokens fontFaceBrace fun taken t =>
      Reads tokens (leafOf tokens (· == .opening .brace)) taken [t] [] :=
  .bind .blank fun _ _ hb => fun s hs => (Accepts.take _ _ s hs).mono fun _ _ h => h.blank hb

theorem strayToken_follows (st : Setting) (expected : String) {t : Placed} {rest : Tokens}
    (hs : DrawnFrom tokens (t :: rest)) :
    Follows tokens (nodeOf .error) (t :: rest) (strayToken st expected t rest).rest
      [(strayToken st expected t rest).result] [strayRecovery t rest] :=
  reads_broken hs (List.suffix_refl _) (Skipped.keeps_one t rest) t.index

theorem unknownAtRule_follows {keyword : Placed} {rest : Tokens}
    (hs : DrawnFrom tokens (keyword :: rest)) (hk : isAtKeyword keyword.kind = true) :
    Follows tokens (nodeOf .unknownAtRule) (keyword :: rest) (unknownAtRule keyword rest).rest
      [(unknownAtRule keyword rest).result] [] := by
  obtain ⟨taken, e, hl⟩ := skipStatement_keeps rest 0
  have hkeyword : Reads tokens (leafOf tokens isAtKeyword) [keyword] [keyword.leaf] [] :=
    .leaf (hs keyword List.mem_cons_self) hk
  have htaken : DrawnFrom tokens taken := (e ▸ hs.tail).left
  have hrow : Reads tokens (production (leafOf tokens) .unknownAtRule) ([keyword] ++ (taken ++ []))
      (keyword.leaf :: (skipStatement 0 rest).leaves) [] := by
    rw [hl]
    exact hkeyword.cons (Reads.leavesOf htaken).last
  refine ⟨_, ?_, hrow.node (by simp) _⟩
  rw [List.append_nil]
  exact congrArg (keyword :: ·) e

theorem rule_follows (st : Setting) {s : Tokens} (hs : DrawnFrom tokens s) :
    Follows tokens (nodeIn [.rule, .error]) s (rule st s).rest [(rule st s).result.1]
      (ruleRecoveries s) := by
  have hl := rulePrelude_advances s
  cases h : rulePrelude s with
  | accepted p left =>
    obtain ⟨taken, e, front, behind, rfl, hselectors, hbrace⟩ := Accepts.rulePrelude s hs p left h
    have hleft : DrawnFrom tokens left := (e ▸ hs).right
    obtain ⟨taken', e', hblock⟩ := declarationBlock_follows st hleft hbrace
    have hrow : Reads tokens (production (leafOf tokens) .rule) (front ++ (taken' ++ []))
        [p.1, (declarationBlock st p.2 left).result] (declarationRecoveries left) :=
      hselectors.cons hblock.last
    have hnode : Reads tokens (nodeIn [.rule, .error]) _ _ _ :=
      (hrow.node (by simp) p.1.first).widen (by simp)
    rw [rule, ruleRecoveries, h]
    refine ⟨_, ?_, hnode⟩
    rw [e, List.append_assoc, e', List.append_nil, List.append_assoc]
    rfl
  | rejected f left =>
    rw [h] at hl
    rw [rule, ruleRecoveries, h]
    exact (reads_broken hs hl (skipRule_keeps left 0) (st.position left)).widen (by decide)

/-- The content of a media block, with the brace that closes it. -/
def mediaContent (tokens : List Token) : Language Tree :=
  [(nodeIn [.rule, .unknownAtRule, .error])∗, optional (leafOf tokens (· == .closing .brace))].prod

theorem isAtKeyword_of_isSome {k : TokenKind} (h : (keyword? k).isSome = true) :
    isAtKeyword k = true := by
  cases k <;> first | rfl | contradiction

theorem mediaBlock_follows (st : Setting) (s : Tokens) (hs : DrawnFrom tokens s) :
    Follows tokens (mediaContent tokens) s (mediaBlock st s).rest (mediaBlock st s).result
      (mediaRecoveries st s) := by
  have hd : DrawnFrom tokens (Tokens.skipBlank s) := hs.skipBlank
  apply Follows.skipBlank
  -- by the recoveries, which take the branches of the block in its order: the end of the input, the
  -- brace, an at-rule, a stray semicolon, and a rule
  fun_induction mediaRecoveries st s with
  | case1 s _ h =>
    rw [mediaBlock_eq, h]
    exact ⟨[], rfl, reads_unclosed _⟩
  | case2 s _ t rest h _ hk =>
    rw [h] at hd
    rw [mediaBlock_eq, h]
    dsimp only
    rw [if_pos hk]
    exact ⟨[t], rfl, reads_closed _ hd hk⟩
  | case3 s _ t rest h _ hk hk' _ ih =>
    rw [h] at hd
    rw [mediaBlock_eq, h]
    dsimp only
    rw [if_neg hk, if_pos hk']
    obtain ⟨taken, e, hreads⟩ := unknownAtRule_follows hd (isAtKeyword_of_isSome hk')
    have hrest : DrawnFrom tokens (unknownAtRule t rest).rest := (e ▸ hd).right
    exact .before ⟨taken, e, hreads.widen (by simp)⟩ (ih hrest hrest.skipBlank).skipBlank
  | case4 s _ t rest h _ hk hk' hk'' ih =>
    rw [h] at hd
    rw [mediaBlock_eq, h]
    dsimp only
    rw [if_neg hk, if_neg hk', if_pos hk'']
    obtain ⟨taken, e, hreads⟩ := strayToken_follows st "rule" hd
    exact .before ⟨taken, e, hreads.widen (by simp)⟩ (ih hd.tail hd.tail.skipBlank).skipBlank
  | case5 s _ t rest h _ hk hk' hk'' hr ih =>
    rw [h] at hd
    rw [mediaBlock_eq, h]
    dsimp only
    rw [if_neg hk, if_neg hk', if_neg hk'']
    obtain ⟨taken, e, hreads⟩ := rule_follows st hd
    have hnode : Reads tokens (nodeIn [.rule, .unknownAtRule, .error]) taken
        [(rule st (t :: rest)).result.1] (ruleRecoveries (t :: rest)) :=
      hreads.widen (by simp)
    split
    · -- skipping the rule took the brace of the block
      exact .before ⟨taken, e, hnode⟩ ⟨[], rfl, reads_unclosed _⟩
    · rename_i hc
      have hrest : DrawnFrom tokens (rule st (t :: rest)).rest := (e ▸ hd).right
      exact .before ⟨taken, e, hnode⟩ (ih hrest hrest.skipBlank).skipBlank

theorem brokenAtRule_follows (st : Setting) {keyword : Placed} {rest left : Tokens} (f : Fault)
    (hs : DrawnFrom tokens (keyword :: rest)) (hl : left <:+ rest) :
    Follows tokens (nodeOf .error) (keyword :: rest) (brokenAtRule st keyword f left).rest
      [(brokenAtRule st keyword f left).result] [brokenRecovery keyword rest left] :=
  reads_broken hs (hl.trans (List.suffix_cons keyword rest)) (skipStatement_keeps left 0)
    keyword.index

/-- The kinds of nodes that an at-rule may come to. -/
def atRuleKinds : List NodeKind :=
  [.namespaceRule, .fontFaceRule, .mediaRule, .unknownAtRule, .error]

theorem reads_keyword {keyword : Placed} {name word : String} {rest : Tokens}
    (hs : DrawnFrom tokens (keyword :: rest)) (hk : keyword? keyword.kind = some name)
    (hw : sameWord name word = true) :
    Reads tokens (leafOf tokens (isKeyword word)) [keyword] [keyword.leaf] [] := by
  apply Reads.leaf (hs keyword List.mem_cons_self)
  cases h : keyword.kind <;> rw [h] at hk <;> first | contradiction | skip
  cases hk
  exact hw

theorem namespaceRule_follows (st : Setting) {keyword : Placed} {name : String} {rest : Tokens}
    (hs : DrawnFrom tokens (keyword :: rest)) (hk : keyword? keyword.kind = some name)
    (hw : sameWord name "namespace" = true) :
    Follows tokens (nodeIn atRuleKinds) (keyword :: rest) (atRule st keyword name rest).rest
      [(atRule st keyword name rest).result] (atRuleRecoveries st keyword name rest) := by
  have hl := namespaceContent_advances rest
  rw [atRule, atRuleRecoveries, if_pos hw, if_pos hw]
  cases h : namespaceContent rest with
  | accepted p left =>
    obtain ⟨taken, e, hreads⟩ := Accepts.namespaceContent rest hs.tail p left h
    have hrow : Reads tokens (production (leafOf tokens) .namespaceRule) ([keyword] ++ taken)
        (keyword.leaf :: p.1) [] := (reads_keyword hs hk hw).cons hreads
    refine ⟨[keyword] ++ taken, ?_, (hrow.node (by simp) keyword.index).widen (by decide)⟩
    rw [e]
    rfl
  | rejected f left =>
    rw [h] at hl
    exact (brokenAtRule_follows st f hs hl).widen (by decide)

theorem fontFaceRule_follows (st : Setting) {keyword : Placed} {name : String} {rest : Tokens}
    (hs : DrawnFrom tokens (keyword :: rest)) (hk : keyword? keyword.kind = some name)
    (hn : ¬ sameWord name "namespace" = true) (hw : sameWord name "font-face" = true) :
    Follows tokens (nodeIn atRuleKinds) (keyword :: rest) (atRule st keyword name rest).rest
      [(atRule st keyword name rest).result] (atRuleRecoveries st keyword name rest) := by
  have hl := fontFaceBrace_advances rest
  rw [atRule, atRuleRecoveries, if_neg hn, if_neg hn, if_pos hw, if_pos hw]
  cases h : fontFaceBrace rest with
  | accepted brace left =>
    obtain ⟨front, e, hbrace⟩ := Accepts.fontFaceBrace rest hs.tail brace left h
    have hleft : DrawnFrom tokens left := (e ▸ hs.tail).right
    obtain ⟨taken, e', hblock⟩ := declarationBlock_follows st hleft hbrace
    have hrow : Reads tokens (production (leafOf tokens) .fontFaceRule) ([keyword] ++ (taken ++ []))
        [keyword.leaf, (declarationBlock st brace left).result] (declarationRecoveries left) :=
      (reads_keyword hs hk hw).cons hblock.last
    refine ⟨_, ?_, (hrow.node (by simp) keyword.index).widen (by decide)⟩
    rw [e, e', List.append_nil]
    rfl
  | rejected f left =>
    rw [h] at hl
    exact (brokenAtRule_follows st f hs hl).widen (by decide)

theorem mediaRule_follows (st : Setting) {keyword : Placed} {name : String} {rest : Tokens}
    (hs : DrawnFrom tokens (keyword :: rest)) (hk : keyword? keyword.kind = some name)
    (hn : ¬ sameWord name "namespace" = true) (hf : ¬ sameWord name "font-face" = true)
    (hw : sameWord name "media" = true) :
    Follows tokens (nodeIn atRuleKinds) (keyword :: rest) (atRule st keyword name rest).rest
      [(atRule st keyword name rest).result] (atRuleRecoveries st keyword name rest) := by
  -- the prelude is read behind the blanks, so they are split off first
  obtain ⟨b, hb, eb⟩ := exists_blank rest
  have hl := mediaPrelude_advances (Tokens.skipBlank rest)
  rw [atRule, atRuleRecoveries, if_neg hn, if_neg hn, if_neg hf, if_neg hf, if_pos hw, if_pos hw]
  cases h : mediaPrelude (Tokens.skipBlank rest) with
  | accepted p left =>
    obtain ⟨front, e, hprelude⟩ := Accepts.mediaPrelude _ hs.tail.skipBlank p left h
    have hleft : DrawnFrom tokens left := (e ▸ hs.tail.skipBlank).right
    obtain ⟨taken, e', hcontent⟩ := mediaBlock_follows st left hleft
    have hrow : Reads tokens (production (leafOf tokens) .mediaRule)
        ([keyword] ++ (b ++ (front ++ taken)))
        (keyword.leaf :: p.1 :: p.2 :: (mediaBlock st left).result) (mediaRecoveries st left) :=
      (reads_keyword hs hk hw).cons ((hprelude.join hcontent).blank hb)
    refine ⟨_, ?_, (hrow.node (by simp) keyword.index).widen (by decide)⟩
    have hsplit : Tokens.skipBlank rest = front ++ (taken ++ (mediaBlock st left).rest) := calc
      Tokens.skipBlank rest = front ++ left := e
      _ = front ++ (taken ++ (mediaBlock st left).rest) := by rw [← e']
    rw [eb, hsplit]
    simp
  | rejected f left =>
    rw [h] at hl
    have hrest : left <:+ rest := hl.trans (Tokens.skipBlank_suffix rest)
    exact (brokenAtRule_follows st f hs hrest).widen (by decide)

theorem atRule_follows (st : Setting) {keyword : Placed} {name : String} {rest : Tokens}
    (hs : DrawnFrom tokens (keyword :: rest)) (hk : keyword? keyword.kind = some name) :
    Follows tokens (nodeIn atRuleKinds) (keyword :: rest) (atRule st keyword name rest).rest
      [(atRule st keyword name rest).result] (atRuleRecoveries st keyword name rest) := by
  by_cases hn : sameWord name "namespace" = true
  · exact namespaceRule_follows st hs hk hn
  by_cases hf : sameWord name "font-face" = true
  · exact fontFaceRule_follows st hs hk hn hf
  by_cases hm : sameWord name "media" = true
  · exact mediaRule_follows st hs hk hn hf hm
  rw [atRule, atRuleRecoveries, if_neg hn, if_neg hn, if_neg hf, if_neg hf, if_neg hm, if_neg hm]
  have hk' : isAtKeyword keyword.kind = true := isAtKeyword_of_isSome (by rw [hk]; rfl)
  exact (unknownAtRule_follows hs hk').widen (by decide)

/-- A statement of any kind. -/
def statementKinds : List NodeKind :=
  [.namespaceRule, .fontFaceRule, .mediaRule, .unknownAtRule, .rule, .error]

theorem statement_follows (st : Setting) {t : Placed} {rest : Tokens}
    (hs : DrawnFrom tokens (t :: rest)) :
    Follows tokens (nodeIn statementKinds) (t :: rest) (statement st t rest).rest
      [(statement st t rest).result] (statementRecoveries st t rest) := by
  rw [statement, statementRecoveries]
  cases hk : keyword? t.kind with
  | some name => exact (atRule_follows st hs hk).widen (by decide)
  | none =>
    dsimp only
    split
    · exact (strayToken_follows st "rule or at-rule" hs).widen (by decide)
    · exact (rule_follows st hs).widen (by decide)

theorem statements_follows (st : Setting) (s : Tokens) (hs : DrawnFrom tokens s) :
    Follows tokens (nodeIn statementKinds)∗ s (statements st s).rest (statements st s).result
      (statementsRecoveries st s) := by
  have hd : DrawnFrom tokens (Tokens.skipBlank s) := hs.skipBlank
  apply Follows.skipBlank
  fun_induction statementsRecoveries st s with
  | case1 s _ h =>
    rw [statements_eq, h]
    exact ⟨[], rfl, .star_nil⟩
  | case2 s _ t rest h _ ih =>
    rw [h] at hd
    rw [statements_eq, h]
    obtain ⟨taken, e, hreads⟩ := statement_follows st hd
    have hrest : DrawnFrom tokens (statement st t rest).rest := (e ▸ hd).right
    -- the blanks behind the statement belong to the statements that follow
    obtain ⟨taken', e', hmore⟩ := (ih hrest hrest.skipBlank).skipBlank
    refine ⟨taken ++ taken', ?_, hreads.star_cons hmore⟩
    rw [List.append_assoc]
    exact e.trans (congrArg (taken ++ ·) e')

/-- The reader of statements leaves nothing. -/
theorem statements_rest (st : Setting) (s : Tokens) : (statements st s).rest = [] := by
  fun_induction statementsRecoveries st s with
  | case1 s _ h => rw [statements_eq, h]
  | case2 s _ t rest h _ ih =>
    rw [statements_eq, h]
    exact ih

end

end Stylesheet.Grammar
