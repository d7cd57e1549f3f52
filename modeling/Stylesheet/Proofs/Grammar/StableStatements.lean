import Stylesheet.Proofs.Grammar.StableProductions

/-!
# More tokens behind blocks and statements

What goes on behind faults: a block or a statement that leaves a token which is not blank is read in
the same way, with the same problems, whatever tokens follow (`statement_append`), and wherever they
end.
-/

namespace Stylesheet

namespace Parsed

variable {α β : Type}

/-- The same, with more tokens behind. -/
def extend (more : Tokens) (p : Parsed α) : Parsed α := { p with rest := p.rest ++ more }

theorem extend_cons (more : Tokens) (t : Tree) (p : Parsed (List Tree)) :
    (p.extend more).cons t = (p.cons t).extend more := rfl

theorem extend_report (more : Tokens) (problems : List Problem) (p : Parsed α) :
    (p.extend more).report problems = (p.report problems).extend more := rfl

theorem extend_map (more : Tokens) (f : α → β) (p : Parsed α) :
    (p.extend more).map f = (p.map f).extend more := rfl

end Parsed

namespace Grammar

open Production Tokens

/-- What a stable production made of the tokens, with more tokens behind. -/
theorem Stable.accepted {α : Type} {p : Production α} (hp : Stable p) {s rest : Tokens} {a : α}
    (h : p s = .accepted a rest) (hr : Solid rest) (more : Tokens) :
    p (s ++ more) = .accepted a (rest ++ more) := by
  have ha := (hp s).append (h ▸ hr) more
  rwa [h] at ha

theorem Stable.rejected {α : Type} {p : Production α} (hp : Stable p) {s rest : Tokens} {f : Fault}
    (h : p s = .rejected f rest) (hr : Solid rest) (more : Tokens) :
    p (s ++ more) = .rejected f (rest ++ more) ∧ f.place.isSome = true := by
  have ha := (hp s).append (h ▸ hr) more
  rw [h] at ha
  exact ⟨ha, (hp s).placed f rest h hr⟩

theorem skipBlank_append {s rest : Tokens} {t : Placed} (h : skipBlank s = t :: rest)
    (more : Tokens) : skipBlank (s ++ more) = t :: (rest ++ more) := by
  rw [(solid_of_skipBlank h).skipBlank_append, h, List.cons_append]

/-- A namespace rule that lacks its semicolon has its address, which tells where that is missing. -/
theorem namespaceContent_missing {s rest : Tokens} {trees : List Tree} {f : Fault}
    (h : namespaceContent s = .accepted (trees, some f) rest) : f.place.isSome = true := by
  simp only [namespaceContent, bind_apply, blank_apply, ahead_apply] at h
  split at h
  · rename_i nsPrefix r _
    cases e : skipBlank r with
    | nil =>
      rw [e] at h
      contradiction
    | cons t r' =>
      rw [e] at h
      simp only [take_cons] at h
      split at h
      · split at h
        · simp only [pure_apply, Outcome.accepted.injEq, Prod.mk.injEq] at h
          obtain ⟨⟨-, hf⟩, -⟩ := h
          split at hf
          · cases hf
            rfl
          · contradiction
        · contradiction
      · contradiction
  · contradiction

theorem position_append {s : Tokens} (h : s ≠ []) (st st' : Setting) (more : Tokens) :
    st'.position (s ++ more) = st.position s := by
  cases s with
  | nil => contradiction
  | cons t rest => rfl

section

variable {st st' : Setting} (hst : st.source = st'.source)

include hst

/-- A fault with a place is reported there, wherever the tokens end. -/
theorem problem_eq {f : Fault} (h : f.place.isSome = true) : st.problem f = st'.problem f := by
  obtain ⟨place, hp⟩ := Option.isSome_iff_exists.1 h
  rw [Setting.problem, Setting.problem, Fault.problem, Fault.problem, hst, hp]
  rfl

theorem declarations_append (s : Tokens) (h : Solid (declarations st s).rest) (more : Tokens) :
    declarations st' (s ++ more) = (declarations st s).extend more := by
  fun_induction declarations st s with
  | case1 => exact absurd h not_solid_nil
  | case2 s _ t rest hs _ hk =>
    rw [declarations_eq, skipBlank_append hs]
    dsimp only
    rw [if_pos hk]
    rfl
  | case3 s _ t rest hs _ hk hk' ih =>
    rw [declarations_eq, skipBlank_append hs]
    dsimp only
    rw [if_neg hk, if_pos hk', ih h, Parsed.extend_cons]
  | case4 s _ t rest hs _ hk hk' d left hd _ ih =>
    have hleft : Solid left := Solid.of_suffix h (declarations_suffix st left)
    rw [declarations_eq, skipBlank_append hs]
    dsimp only
    rw [if_neg hk, if_neg hk', ← List.cons_append, Stable.declaration.accepted hd hleft]
    dsimp only
    rw [ih h, Parsed.extend_cons]
  | case5 s _ t rest hs _ hk hk' f left hd _ ih =>
    have hskip : Solid (skipDeclaration 0 left).rest :=
      Solid.of_suffix h (declarations_suffix st _)
    have hleft : Solid left := hskip.of_suffix (skipDeclaration_suffix left 0)
    obtain ⟨he, hp⟩ := Stable.declaration.rejected hd hleft more
    rw [declarations_eq, skipBlank_append hs]
    dsimp only
    rw [if_neg hk, if_neg hk', ← List.cons_append, he]
    dsimp only
    rw [skipDeclaration_append left 0 hskip, Skipped.extend, ih h, Parsed.extend_cons,
      Parsed.extend_report, position_append hleft.ne_nil st st', problem_eq hst hp]

theorem declarationBlock_append (brace : Tree) (s : Tokens)
    (h : Solid (declarationBlock st brace s).rest) (more : Tokens) :
    declarationBlock st' brace (s ++ more) = (declarationBlock st brace s).extend more := by
  rw [declarationBlock, declarations_append hst s h, Parsed.extend_map]
  rfl

theorem rule_append (s : Tokens) (h : Solid (rule st s).rest) (more : Tokens) :
    rule st' (s ++ more) = (rule st s).extend more := by
  rw [rule] at h
  rw [rule, rule]
  cases hp : rulePrelude s with
  | accepted p left =>
    rw [hp] at h
    have hleft : Solid left := Solid.of_suffix h (declarations_suffix st left)
    rw [Stable.rulePrelude.accepted hp hleft]
    dsimp only
    rw [declarationBlock_append hst p.2 left h, Parsed.extend_map]
  | rejected f left =>
    rw [hp] at h
    have hleft : Solid left := Solid.of_suffix h (skipRule_suffix left 0)
    obtain ⟨he, hf⟩ := Stable.rulePrelude.rejected hp hleft more
    rw [he]
    dsimp only
    rw [skipRule_append left 0 h, closesOuter_append left 0 h, Skipped.extend,
      position_append hleft.ne_nil st st', problem_eq hst hf]
    rfl

omit hst in
theorem unknownAtRule_append (keyword : Placed) (rest : Tokens)
    (h : Solid (unknownAtRule keyword rest).rest) (more : Tokens) :
    unknownAtRule keyword (rest ++ more) = (unknownAtRule keyword rest).extend more := by
  rw [unknownAtRule, unknownAtRule, skipStatement_append rest 0 h]
  rfl

theorem brokenAtRule_append (keyword : Placed) {f : Fault} (hf : f.place.isSome = true)
    (rest : Tokens) (h : Solid (brokenAtRule st keyword f rest).rest) (more : Tokens) :
    brokenAtRule st' keyword f (rest ++ more) = (brokenAtRule st keyword f rest).extend more := by
  rw [brokenAtRule, brokenAtRule, skipStatement_append rest 0 h, problem_eq hst hf]
  rfl

theorem strayToken_append (expected : String) (t : Placed) (rest more : Tokens) :
    strayToken st' expected t (rest ++ more) = (strayToken st expected t rest).extend more := by
  have hs : (Tokens.unexpected (t :: rest) expected).place.isSome = true := rfl
  have hp : st.problem (Tokens.unexpected (t :: rest) expected) =
      st'.problem (Tokens.unexpected (t :: (rest ++ more)) expected) := problem_eq hst hs
  rw [strayToken, strayToken, ← hp]
  rfl

theorem mediaBlock_append (s : Tokens) (h : Solid (mediaBlock st s).rest) (more : Tokens) :
    mediaBlock st' (s ++ more) = (mediaBlock st s).extend more := by
  fun_induction mediaBlock st s with
  | case1 => exact absurd h not_solid_nil
  | case2 s _ t rest hs _ hk =>
    rw [mediaBlock_eq, skipBlank_append hs]
    dsimp only
    rw [if_pos hk]
    rfl
  | case3 s _ t rest hs _ hk hk' p _ ih =>
    have hp : Solid p.rest := Solid.of_suffix h (mediaBlock_suffix st _)
    rw [mediaBlock_eq, skipBlank_append hs]
    dsimp only
    rw [if_neg hk, if_pos hk', unknownAtRule_append t rest hp]
    change ((mediaBlock st' (p.rest ++ more)).cons p.result).report p.problems = _
    rw [ih h, Parsed.extend_cons, Parsed.extend_report]
  | case4 s _ t rest hs _ hk hk' hk'' p _ ih =>
    rw [mediaBlock_eq, skipBlank_append hs]
    dsimp only
    rw [if_neg hk, if_neg hk', if_pos hk'', strayToken_append hst]
    change ((mediaBlock st' (p.rest ++ more)).cons p.result).report p.problems = _
    rw [ih h, Parsed.extend_cons, Parsed.extend_report]
  | case5 s _ t rest hs _ hk hk' hk'' p _ hc =>
    rw [mediaBlock_eq, skipBlank_append hs]
    dsimp only
    rw [if_neg hk, if_neg hk', if_neg hk'', ← List.cons_append, rule_append hst _ h]
    exact if_pos hc
  | case6 s _ t rest hs _ hk hk' hk'' p _ hc ih =>
    have hp : Solid p.rest := Solid.of_suffix h (mediaBlock_suffix st _)
    rw [mediaBlock_eq, skipBlank_append hs]
    dsimp only
    rw [if_neg hk, if_neg hk', if_neg hk'', ← List.cons_append, rule_append hst _ hp]
    change (if p.result.2 then _ else
      ((mediaBlock st' (p.rest ++ more)).cons p.result.1).report p.problems) = _
    rw [if_neg hc, ih h, Parsed.extend_cons, Parsed.extend_report]

/-! ## Statements -/

theorem namespaceRule_append (keyword : Placed) {name : String} (rest : Tokens)
    (hn : sameWord name "namespace" = true) (h : Solid (atRule st keyword name rest).rest)
    (more : Tokens) :
    atRule st' keyword name (rest ++ more) = (atRule st keyword name rest).extend more := by
  rw [atRule, if_pos hn] at h
  rw [atRule, if_pos hn, atRule, if_pos hn]
  cases hp : namespaceContent rest with
  | accepted p left =>
    obtain ⟨trees, missing⟩ := p
    rw [hp] at h
    rw [Stable.namespaceContent.accepted hp h]
    have hm : missing.map st'.problem = missing.map st.problem := by
      cases missing with
      | none => rfl
      | some f => exact congrArg some (problem_eq hst (namespaceContent_missing hp)).symm
    dsimp only
    rw [hm]
    rfl
  | rejected f left =>
    rw [hp] at h
    have hleft : Solid left := Solid.of_suffix h (brokenAtRule_suffix st keyword f left)
    obtain ⟨he, hf⟩ := Stable.namespaceContent.rejected hp hleft more
    rw [he]
    exact brokenAtRule_append hst keyword hf left h more

theorem fontFaceRule_append (keyword : Placed) {name : String} (rest : Tokens)
    (hn : ¬ sameWord name "namespace" = true) (hf : sameWord name "font-face" = true)
    (h : Solid (atRule st keyword name rest).rest) (more : Tokens) :
    atRule st' keyword name (rest ++ more) = (atRule st keyword name rest).extend more := by
  rw [atRule, if_neg hn, if_pos hf] at h
  rw [atRule, if_neg hn, if_pos hf, atRule, if_neg hn, if_pos hf]
  cases hp : fontFaceBrace rest with
  | accepted brace left =>
    rw [hp] at h
    have hleft : Solid left := Solid.of_suffix h (declarations_suffix st left)
    rw [Stable.fontFaceBrace.accepted hp hleft]
    dsimp only
    rw [declarationBlock_append hst brace left h, Parsed.extend_map]
  | rejected f left =>
    rw [hp] at h
    have hleft : Solid left := Solid.of_suffix h (brokenAtRule_suffix st keyword f left)
    obtain ⟨he, hf⟩ := Stable.fontFaceBrace.rejected hp hleft more
    rw [he]
    exact brokenAtRule_append hst keyword hf left h more

theorem mediaRule_append (keyword : Placed) {name : String} (rest : Tokens)
    (hn : ¬ sameWord name "namespace" = true) (hf : ¬ sameWord name "font-face" = true)
    (hm : sameWord name "media" = true) (h : Solid (atRule st keyword name rest).rest)
    (more : Tokens) :
    atRule st' keyword name (rest ++ more) = (atRule st keyword name rest).extend more := by
  rw [atRule, if_neg hn, if_neg hf, if_pos hm] at h
  rw [atRule, if_neg hn, if_neg hf, if_pos hm, atRule, if_neg hn, if_neg hf, if_pos hm]
  have hsuffix := mediaPrelude_advances (skipBlank rest)
  cases hp : mediaPrelude (skipBlank rest) with
  | accepted p left =>
    rw [hp] at h hsuffix
    have hleft : Solid left := Solid.of_suffix h (mediaBlock_suffix st left)
    have hrest : Solid rest := Solid.skipBlank (hleft.of_suffix hsuffix)
    rw [hrest.skipBlank_append, Stable.mediaPrelude.accepted hp hleft]
    dsimp only
    rw [mediaBlock_append hst left h, Parsed.extend_map]
  | rejected f left =>
    rw [hp] at h hsuffix
    have hleft : Solid left := Solid.of_suffix h (brokenAtRule_suffix st keyword f left)
    have hrest : Solid rest := Solid.skipBlank (hleft.of_suffix hsuffix)
    obtain ⟨he, hf⟩ := Stable.mediaPrelude.rejected hp hleft more
    rw [hrest.skipBlank_append, he]
    exact brokenAtRule_append hst keyword hf left h more

theorem atRule_append (keyword : Placed) (name : String) (rest : Tokens)
    (h : Solid (atRule st keyword name rest).rest) (more : Tokens) :
    atRule st' keyword name (rest ++ more) = (atRule st keyword name rest).extend more := by
  by_cases hn : sameWord name "namespace" = true
  · exact namespaceRule_append hst keyword rest hn h more
  by_cases hf : sameWord name "font-face" = true
  · exact fontFaceRule_append hst keyword rest hn hf h more
  by_cases hm : sameWord name "media" = true
  · exact mediaRule_append hst keyword rest hn hf hm h more
  rw [atRule, if_neg hn, if_neg hf, if_neg hm] at h ⊢
  rw [atRule, if_neg hn, if_neg hf, if_neg hm]
  exact unknownAtRule_append keyword rest h more

/-- A statement that leaves a token which is not blank is over, whatever follows. -/
theorem statement_append (t : Placed) (rest : Tokens) (h : Solid (statement st t rest).rest)
    (more : Tokens) : statement st' t (rest ++ more) = (statement st t rest).extend more := by
  rw [statement] at h
  rw [statement, statement]
  cases hk : keyword? t.kind with
  | some name =>
    rw [hk] at h
    exact atRule_append hst t name rest h more
  | none =>
    rw [hk] at h
    dsimp only at h ⊢
    by_cases hb : t.kind = .closing .brace ∨ t.kind = .semicolon
    · rw [if_pos hb, if_pos hb]
      exact strayToken_append hst _ t rest more
    · rw [if_neg hb] at h
      rw [if_neg hb, if_neg hb, ← List.cons_append, rule_append hst _ h, Parsed.extend_map]

end

end Grammar

end Stylesheet
