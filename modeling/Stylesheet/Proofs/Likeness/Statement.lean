import Stylesheet.Proofs.Likeness.Selector

/-!
# Alike statements

Media queries, rules and at-rules over alike inputs are alike, with the same problems reported in the
same order, and so is all that a stylesheet holds (`statements_like`).
-/

namespace Stylesheet

open Grammar Production

namespace Grammar

def ruleStep (depth : Nat) (k : TokenKind) : SkipStep :=
  if k = .opening .brace then .on (depth + 1)
  else if k = .closing .brace then if depth ≤ 1 then .behind else .on (depth - 1)
  else .on depth

def statementStep (depth : Nat) (k : TokenKind) : SkipStep :=
  if depth = 0 ∧ k = .closing .brace then .before
  else if depth = 0 ∧ k = .semicolon then .behind
  else ruleStep depth k

theorem skipRule_skipsBy : SkipsBy skipRule ruleStep where
  nil _ := rfl
  cons depth t rest := by
    rw [skipRule, ruleStep]
    split_ifs <;> rfl
  blank depth := by simp [ruleStep]

theorem skipStatement_skipsBy : SkipsBy skipStatement statementStep where
  nil _ := rfl
  cons depth t rest := by
    rw [skipStatement, statementStep, ruleStep]
    split_ifs <;> rfl
  blank depth := by simp [statementStep, ruleStep]

theorem closesOuter_blanks {b : Tokens} (hb : Blank b) (s : Tokens) :
    closesOuter (b ++ s) = closesOuter s := by
  induction b with
  | nil => rfl
  | cons t b ih =>
    obtain ⟨ht, hb⟩ := List.forall_mem_cons.1 hb
    have hk : t.kind = .whitespace := eq_of_beq ht
    rw [List.cons_append, closesOuter, hk, if_neg (by decide), if_neg (by decide), ih hb]

end Grammar

namespace Likeness

variable {L : Likeness}

/-! ## Media queries -/

theorem featureValue_like :
    L.ReadsLike (List.Forall₂ L.TreeLike) featureValue featureValue := by
  refine .bind (.take? (by decide)) fun colon colon' hc => ?_
  cases hc with
  | none => exact .pure .nil
  | some hc =>
    exact .bind .blank fun _ _ _ => .bind (value_like false) fun _ _ hv => .bind .blank fun _ _ _ =>
      .pure (.cons hc.tree (.cons hv .nil))

theorem mediaFeature_like : L.ReadsLike L.TreeLike mediaFeature mediaFeature :=
  .bind (.take (by decide) fun s s' h => by rw [unexpectedInMedia, h.found_eq]; rfl) fun _ _ hp =>
    .bind .blank fun _ _ _ =>
    .bind (.take (by decide) fun s s' h => by rw [h.found_eq]) fun _ _ hn =>
    .bind .blank fun _ _ _ => .bind featureValue_like fun _ _ hv =>
    .bind (.take (by decide) fun s s' h => by rw [h.found_eq]) fun _ _ hc =>
      .pure (.node _ hp.tree.first (.cons hp.tree (.cons hn.tree
        (List.rel_append hv (.cons hc.tree .nil)))))

theorem startsQualified_eq {s s' : Tokens} (h : L.InputLike s s') :
    startsQualified s = startsQualified s' := by
  cases h.front with
  | nil => rfl
  | @cons t u r r' ht hr =>
    unfold startsQualified
    dsimp only
    rw [← ht.kind]
    by_cases hw : t.kind = .whitespace
    · rw [hw]
      rfl
    · rw [(hr hw).skipBlank.startsWith_eq]

theorem unexpectedInMedia_eq {s s' : Tokens} (h : L.InputLike s s') :
    unexpectedInMedia s = unexpectedInMedia s' := by
  rw [unexpectedInMedia, unexpectedInMedia, h.found_eq]

theorem mediaQueryHead_like :
    L.ReadsLike (List.Forall₂ L.TreeLike) mediaQueryHead mediaQueryHead := by
  refine .bind .blank fun _ _ _ => .bind .ahead fun s s' h => ?_
  rw [← startsQualified_eq h, ← h.startsWith_eq]
  exact .ite
    (.bind (.take (by decide) fun _ _ => unexpectedInMedia_eq) fun _ _ hq => .bind .blank fun _ _ _ =>
      .bind (.take (by decide) fun _ _ => unexpectedInMedia_eq) fun _ _ hm =>
        .pure (.cons hq.tree (.cons hm.tree .nil)))
    (.ite
      (.bind (.take (by decide) fun _ _ => unexpectedInMedia_eq) fun _ _ hm =>
        .pure (.cons hm.tree .nil))
      (.bind mediaFeature_like fun _ _ hf => .pure (.cons hf .nil)))

theorem furtherFeature_like :
    L.ReadsLike (List.Forall₂ L.TreeLike) furtherFeature furtherFeature :=
  .bind (.take (by decide) fun _ _ => unexpectedInMedia_eq) fun _ _ ha => .bind .blank fun _ _ _ =>
    .bind mediaFeature_like fun _ _ hf => .pure (.cons ha.tree (.cons hf .nil))

theorem furtherFeatures_like :
    L.ReadsLike (List.Forall₂ L.TreeLike) furtherFeatures furtherFeatures := by
  intro s s' h
  refine h.byLength fun s s' h ih => ?_
  rw [furtherFeatures_eq, furtherFeatures_eq, ← h.skipBlank.startsWith_eq]
  split
  · have hl := skipBlank_length_le s
    have hf := furtherFeature_like _ _ h.skipBlank
    generalize e : furtherFeature (Tokens.skipBlank s) = o at hf
    generalize furtherFeature (Tokens.skipBlank s') = o' at hf
    cases hf with
    | rejected hf hr => exact .rejected hf hr
    | accepted hf hr =>
      have hc := furtherFeature_consumes _ _ _ e
      exact (ih _ _ (by omega) hr).map fun _ _ hmore => List.rel_append hf hmore
  · exact .accepted .nil h.skipBlank

/-- The place of what begins with some token. -/
theorem place_like {s s' : Tokens} (h : L.InputLike s s') (hne : s ≠ []) :
    L.index (s.head?.elim 0 (·.index)) (s'.head?.elim 0 (·.index)) := by
  cases h.front with
  | nil => contradiction
  | cons ht => exact ht.index

theorem mediaQuery_like : L.ReadsLike L.TreeLike mediaQuery mediaQuery := by
  intro s s' h
  by_cases hne : Tokens.skipBlank s = []
  · have hb := h.skipBlank
    rw [hne] at hb
    have hne' : Tokens.skipBlank s' = [] := by
      generalize Tokens.skipBlank s' = t' at hb
      cases hb.front with
      | nil => rfl
    rw [mediaQuery_blank hne, mediaQuery_blank hne']
    exact .rejected ⟨rfl, .none⟩ .nil
  · refine ReadsLike.bind_at (ReadsLike.ahead s s' h) fun a b r r' e hab hr => ?_
    cases e
    exact ReadsLike.bind mediaQueryHead_like (fun _ _ hh => .bind furtherFeatures_like
      fun _ _ hm => .pure (.node _ (place_like hab.skipBlank hne) (List.rel_append hh hm))) s r' hr

theorem furtherQueries_like :
    L.ReadsLike (List.Forall₂ L.TreeLike) furtherQueries furtherQueries := by
  intro s s' h
  refine h.byLength fun s s' h ih => ?_
  cases h.front with
  | nil =>
    rw [furtherQueries]
    exact .accepted .nil .nil
  | @cons t u r r' ht hr =>
    rw [furtherQueries_cons, furtherQueries_cons, ← ht.kind]
    split
    · rename_i hk
      have hr := hr (by simp [hk])
      have hq := mediaQuery_like _ _ hr
      generalize e : mediaQuery r = o at hq
      generalize mediaQuery r' = o' at hq
      cases hq with
      | rejected hf hr => exact .rejected hf hr
      | accepted hq hleft =>
        have hc := mediaQuery_consumes _ _ _ e
        exact (ih _ _ (by rw [List.length_cons]; omega) hleft).map fun _ _ hmore =>
          .cons ht.leaf.tree (.cons hq hmore)
    · exact .accepted .nil h

theorem mediaQueries_like : L.ReadsLike (List.Forall₂ L.TreeLike) mediaQueries mediaQueries := by
  refine .bind .ahead fun s s' h => ?_
  rw [← h.startsWith_eq]
  exact .ite (.pure .nil) (.bind mediaQuery_like fun _ _ hq => .bind furtherQueries_like fun _ _ hm =>
    .pure (.cons hq hm))

/-- The queries of a media rule and the brace behind them. -/
theorem mediaPrelude_like :
    L.ReadsLike (fun p q => L.TreeLike p.1 q.1 ∧ L.LeafLike p.2 q.2) mediaPrelude mediaPrelude := by
  intro s s' h
  by_cases hne : s = []
  · cases h.front with
    | nil => exact .rejected ⟨rfl, .none⟩ .nil
    | cons => contradiction
  · refine ReadsLike.bind_at (ReadsLike.ahead s s' h) fun a b r r' e hab hr => ?_
    cases e
    exact ReadsLike.bind mediaQueries_like (fun _ _ hq =>
      .bind (.take (by decide) fun _ _ => unexpectedInMedia_eq) fun _ _ hb =>
        .pure ⟨.node _ (place_like hab hne) hq, hb⟩) s r' hr

/-! ## At-rules and rules -/

theorem namespaceContent_like :
    L.ReadsLike (fun p q => List.Forall₂ L.TreeLike p.1 q.1 ∧ Option.Rel L.FaultLike p.2 q.2)
      namespaceContent namespaceContent := by
  refine .bind .blank fun _ _ _ => .bind (.take? (by decide)) fun nsPrefix nsPrefix' hp =>
    .bind .blank fun _ _ _ => .bind .ahead fun s s' h =>
    .bind (.take (by decide) fun s s' h => by rw [h.found_eq]) fun address address' ha =>
    .bind .blank fun _ _ _ => .bind (.take? (by decide)) fun semicolon semicolon' hs => .pure ⟨?_, ?_⟩
  · refine List.rel_append ?_ (.cons ha.tree (optional_like hs))
    cases hp with
    | none => exact .nil
    | some hp => exact .cons (single_like .namespacePrefix hp) .nil
  · cases hs with
    | some => exact .none
    | none =>
      refine .some ⟨rfl, ?_⟩
      cases h.front with
      | nil => exact .none
      | cons ht => exact .some (L.span_stop ht.span)

theorem fontFaceBrace_like : L.ReadsLike L.LeafLike fontFaceBrace fontFaceBrace :=
  .bind .blank fun _ _ _ => .take (by decide) fun s s' h => by rw [h.found_eq]

theorem closesOuter_eq {s s' : Tokens} (h : L.InputLike s s') : closesOuter s = closesOuter s' := by
  induction h with
  | nil => rfl
  | cons ht _ _ ih => rw [closesOuter, closesOuter, ← ht.kind, ih]
  | run hb _ ih => rw [closesOuter_blanks hb.left, closesOuter_blanks hb.right, ih]

section

variable {st st' : Setting} (hst : L.SettingLike st st')
  {t u : Placed} (ht : L.TokenLike t u) {r r' s s' : Tokens}

include ht in
theorem unknownAtRule_like (h : L.InputLike r r') :
    L.ParsedLike L.TreeLike (unknownAtRule t r) (unknownAtRule u r') :=
  have hskip := skip_like skipStatement_skipsBy h 0
  ⟨hskip.1.behind rfl ht.index ht.leaf, .nil, hskip.2⟩

include hst

include ht in
theorem brokenAtRule_like {f g : Fault} (hf : L.FaultLike f g) (h : L.InputLike r r') :
    L.ParsedLike L.TreeLike (brokenAtRule st t f r) (brokenAtRule st' u g r') :=
  have hskip := skip_like skipStatement_skipsBy h 0
  ⟨hskip.1.error ht.index, .cons (problem_like hst hf) .nil, hskip.2⟩

include ht in
theorem strayToken_like (hw : t.kind ≠ .whitespace) (h : L.InputLike r r') (expected : String) :
    L.ParsedLike L.TreeLike (strayToken st expected t r) (strayToken st' expected u r') := by
  have hall : L.InputLike (t :: r) (u :: r') := .cons ht hw h
  exact ⟨.node _ ht.index (.cons ht.leaf.tree .nil),
    .cons (problem_like hst (hall.fault (by rw [hall.found_eq]))) .nil, h⟩

theorem rule_like (h : L.InputLike s s') :
    L.ParsedLike (fun p q => L.TreeLike p.1 q.1 ∧ p.2 = q.2) (rule st s) (rule st' s') := by
  have hp := rulePrelude_like s s' h
  unfold rule
  generalize rulePrelude s = o at hp
  generalize rulePrelude s' = o' at hp
  cases hp with
  | accepted hp hr =>
    exact (declarationBlock_like hst hp.2 hr).map fun _ _ hb =>
      ⟨.node _ hp.1.first (.cons hp.1 (.cons hb .nil)), rfl⟩
  | rejected hf hr =>
    have hskip := skip_like skipRule_skipsBy hr 0
    exact ⟨⟨hskip.1.error (position_like hst hr), closesOuter_eq hr⟩,
      .cons (problem_like hst hf) .nil, hskip.2⟩

theorem mediaBlock_like (h : L.InputLike s s') :
    L.ParsedLike (List.Forall₂ L.TreeLike) (mediaBlock st s) (mediaBlock st' s') := by
  refine h.byLength fun s s' h ih => ?_
  have hl := skipBlank_length_le s
  rw [mediaBlock_eq, mediaBlock_eq]
  obtain ⟨e, e'⟩ | ⟨t, r, u, r', e, e', ht, hw, hr⟩ := h.skipBlank_cases
  · rw [e, e']
    exact ⟨.nil, .cons (problem_like hst ⟨rfl, .none⟩) .nil, .nil⟩
  · rw [e, List.length_cons] at hl
    have hrule := rule_like hst (.cons ht hw hr : L.InputLike (t :: r) (u :: r'))
    rw [e, e']
    dsimp only
    rw [← ht.kind, ← hrule.result.2]
    split
    · exact ⟨.cons ht.leaf.tree .nil, .nil, hr⟩
    · split
      · have hu := unknownAtRule_like ht hr
        have hc := unknownAtRule_length t r
        exact .report hu.problems (.cons hu.result (ih _ _ (by omega) hu.rest))
      · split
        · have hstray := strayToken_like hst ht hw hr "rule"
          exact .report hstray.problems (.cons hstray.result (ih r r' (by omega) hr))
        · split
          · exact ⟨.cons hrule.result.1 .nil, hrule.problems, hrule.rest⟩
          · have hc : (rule st (t :: r)).rest.length ≤ r.length := rule_length
            exact .report hrule.problems (.cons hrule.result.1 (ih _ _ (by omega) hrule.rest))

include ht in
theorem atRule_like (name : String) (h : L.InputLike r r') :
    L.ParsedLike L.TreeLike (atRule st t name r) (atRule st' u name r') := by
  unfold atRule
  split
  · have hn := namespaceContent_like r r' h
    generalize namespaceContent r = o at hn
    generalize namespaceContent r' = o' at hn
    cases hn with
    | @accepted content content' _ _ hn hr =>
      obtain ⟨trees, missing⟩ := content
      obtain ⟨trees', missing'⟩ := content'
      obtain ⟨htrees, hmissing⟩ : List.Forall₂ L.TreeLike trees trees' ∧
        Option.Rel L.FaultLike missing missing' := hn
      refine ⟨.node _ ht.index (.cons ht.leaf.tree htrees), ?_, hr⟩
      cases hmissing with
      | none => exact .nil
      | some hf => exact .cons (problem_like hst hf) .nil
    | rejected hf hr => exact brokenAtRule_like hst ht hf hr
  · split
    · have hb := fontFaceBrace_like r r' h
      generalize fontFaceBrace r = o at hb
      generalize fontFaceBrace r' = o' at hb
      cases hb with
      | accepted hb hr =>
        exact (declarationBlock_like hst hb hr).map fun _ _ hblock =>
          .node _ ht.index (.cons ht.leaf.tree (.cons hblock .nil))
      | rejected hf hr => exact brokenAtRule_like hst ht hf hr
    · split
      · have hp := mediaPrelude_like _ _ h.skipBlank
        generalize mediaPrelude (Tokens.skipBlank r) = o at hp
        generalize mediaPrelude (Tokens.skipBlank r') = o' at hp
        cases hp with
        | accepted hp hr =>
          exact (mediaBlock_like hst hr).map fun _ _ hc =>
            .node _ ht.index (.cons ht.leaf.tree (.cons hp.1 (.cons hp.2.tree hc)))
        | rejected hf hr => exact brokenAtRule_like hst ht hf hr
      · exact unknownAtRule_like ht h

include ht in
theorem statement_like (hw : t.kind ≠ .whitespace) (h : L.InputLike r r') :
    L.ParsedLike L.TreeLike (statement st t r) (statement st' u r') := by
  unfold statement
  rw [← ht.kind]
  split
  · exact atRule_like hst ht _ h
  · split
    · exact strayToken_like hst ht hw h _
    · exact (rule_like hst (.cons ht hw h)).map fun _ _ hr => hr.1

/-- The statements of alike inputs. -/
theorem statements_like (h : L.InputLike s s') :
    L.ParsedLike (List.Forall₂ L.TreeLike) (statements st s) (statements st' s') := by
  refine h.byLength fun s s' h ih => ?_
  have hl := skipBlank_length_le s
  rw [statements_eq, statements_eq]
  obtain ⟨e, e'⟩ | ⟨t, r, u, r', e, e', ht, hw, hr⟩ := h.skipBlank_cases
  · rw [e, e']
    exact ⟨.nil, .nil, .nil⟩
  · rw [e, List.length_cons] at hl
    rw [e, e']
    have hs := statement_like hst ht hw hr
    have hc := statement_length st t r
    exact .report hs.problems (.cons hs.result (ih _ _ (by omega) hs.rest))

end

/-- The trees of alike tokens, and the problems found in them. -/
theorem parseTokens_like {source : String} {ts us : List Token}
    (hst : L.SettingLike (setting source ts) (setting source us))
    (h : L.InputLike (numbered ts) (numbered us)) :
    L.TreeLike (parseTokens source ts).tree (parseTokens source us).tree ∧
      List.Forall₂ L.ProblemLike (parseTokens source ts).problems (parseTokens source us).problems :=
  have hs := statements_like hst h
  ⟨.node .stylesheet hst.stopIndex hs.result, hs.problems⟩

end Likeness

end Stylesheet
