import Stylesheet.Proofs.Likeness.Declaration

/-!
# Alike selectors

The selectors of a rule over alike inputs are alike (`rulePrelude_like`). A run of blanks in front of a
compound is a combinator, which its first blank stands for, and the argument of a pseudo-class keeps
its blanks one by one.
-/

namespace Stylesheet.Likeness

open Grammar Production

variable {L : Likeness}

/-! ## Conditions -/

theorem single_like {t u : Tree} (kind : NodeKind) (h : L.LeafLike t u) :
    L.TreeLike (single kind t) (single kind u) :=
  .node kind h.tree.first (.cons h.tree .nil)

theorem classSelector_like : L.ReadsLike L.TreeLike classSelector classSelector :=
  .bind (.take (by decide) fun s s' h => by rw [h.found_eq]) fun _ _ hdot =>
    .bind (.take (by decide) fun _ _ _ => rfl) fun _ _ hname =>
      .pure (.node _ hdot.tree.first (.cons hdot.tree (.cons hname.tree .nil)))

theorem attributeMatcher_like :
    L.ReadsLike (List.Forall₂ L.TreeLike) attributeMatcher attributeMatcher := by
  refine .bind (.take? (by decide)) fun comparison comparison' hc => ?_
  cases hc with
  | none => exact .pure .nil
  | some hc =>
    exact .bind .blank fun _ _ _ => .bind (.take (by decide) fun _ _ _ => rfl) fun _ _ hv =>
      .bind .blank fun _ _ _ => .pure (.cons hc.tree (.cons hv.tree .nil))

theorem attributeSelector_like : L.ReadsLike L.TreeLike attributeSelector attributeSelector :=
  .bind (.take (by decide) fun s s' h => by rw [h.found_eq]) fun _ _ hb =>
    .bind .blank fun _ _ _ => .bind (.take (by decide) fun _ _ _ => rfl) fun _ _ hn =>
    .bind .blank fun _ _ _ => .bind attributeMatcher_like fun _ _ hm =>
    .bind (.take (by decide) fun _ _ _ => rfl) fun _ _ hc =>
      .pure (.node _ hb.tree.first (.cons hb.tree (.cons hn.tree
        (List.rel_append hm (.cons hc.tree .nil)))))

/-- Blanks in an argument are kept. -/
theorem pseudoArgument_blanks {b : Tokens} (hb : Blank b) (depth : Nat) (s : Tokens) :
    pseudoArgument depth (b ++ s) = (pseudoArgument depth s).map (b.map Placed.leaf ++ ·) := by
  induction b with
  | nil =>
    rw [List.nil_append]
    cases pseudoArgument depth s <;> rfl
  | cons t b ih =>
    obtain ⟨ht, hb⟩ := List.forall_mem_cons.1 hb
    have hk : t.kind = .whitespace := eq_of_beq ht
    rw [List.cons_append, pseudoArgument, ih hb, hk, if_neg (by decide), if_neg (by decide)]
    cases pseudoArgument depth s <;> rfl

theorem pseudoArgument_like {s s' : Tokens} (h : L.InputLike s s') (depth : Nat) :
    L.OutcomeLike L.RowLike (pseudoArgument depth s) (pseudoArgument depth s') := by
  induction h generalizing depth with
  | nil => exact .rejected ⟨rfl, .none⟩ .nil
  | @cons t u r r' ht hw hs ih =>
    have step (depth : Nat) :
        L.OutcomeLike L.RowLike ((pseudoArgument depth r).map (t.leaf :: ·))
          ((pseudoArgument depth r').map (u.leaf :: ·)) :=
      (ih depth).map fun _ _ hrow => hrow.cons ht.leaf
    rw [pseudoArgument, pseudoArgument, ← ht.kind]
    split
    · exact step _
    · split
      · split
        · exact .accepted (.cons ht.leaf .nil) hs
        · exact step _
      · exact step _
  | run hb hs ih =>
    rw [pseudoArgument_blanks hb.left, pseudoArgument_blanks hb.right]
    exact (ih depth).map fun _ _ hrow => hrow.run hb

theorem pseudoName_like : L.ReadsLike L.RowLike pseudoName pseudoName := by
  intro s s' h
  cases h.front with
  | nil => exact .rejected ⟨rfl, .none⟩ .nil
  | @cons t u r r' ht hr =>
    have hf : L.FaultLike (Tokens.fault (t :: r) (.selector .noPseudoName))
        (Tokens.fault (u :: r') (.selector .noPseudoName)) := h.fault rfl
    unfold pseudoName
    dsimp only
    rw [← ht.kind]
    split
    · rename_i hk
      exact .accepted (.cons ht.leaf .nil) (hr (by simp [hk]))
    · rename_i hk
      exact (pseudoArgument_like (hr (by simp [hk])) 0).map fun _ _ hrow => hrow.cons ht.leaf
    · exact .rejected hf h

theorem pseudoSelector_like : L.ReadsLike L.TreeLike pseudoSelector pseudoSelector := by
  refine .bind (.take (by decide) fun s s' h => by rw [h.found_eq]) fun colon colon' hc =>
    .bind (.take? (by decide)) fun second second' hs => .bind pseudoName_like fun name name' hn =>
    .pure (RowLike.behind rfl hc.tree.first hc ?_)
  cases hs with
  | none => exact hn
  | some hs => exact hn.cons hs

/-- Conditions of alike inputs, where a token begins one. -/
theorem condition_like {s s' : Tokens} (h : L.InputLike s s')
    (hs : s.startsWith startsCondition = true) :
    L.OutcomeLike L.TreeLike (condition s) (condition s') := by
  unfold condition
  rw [← h.kind?_eq]
  split
  · exact classSelector_like s s' h
  · exact attributeSelector_like s s' h
  · exact pseudoSelector_like s s' h
  · -- the text of the token is in the fault, so it must be no blank
    refine ReadsLike.bind_at (ReadsLike.take_at rfl h ?_) fun id id' r r' _ hid hr =>
      .accepted (single_like .idSelector hid) hr
    cases h.front with
    | nil => rfl
    | @cons t u r r' ht _ =>
      have hw : t.kind ≠ .whitespace := by
        intro hw
        have hs : startsCondition t.kind = true := hs
        rw [hw] at hs
        contradiction
      show Fault.Cause.selector (.noId t.token.text) = .selector (.noId u.token.text)
      rw [ht.text hw]

theorem conditions_like : L.ReadsLike (List.Forall₂ L.TreeLike) conditions conditions := by
  intro s s' h
  refine h.byLength fun s s' h ih => ?_
  rw [conditions_eq, conditions_eq, ← h.startsWith_eq]
  split
  · rename_i hs
    have hc := condition_like h hs
    generalize e : condition s = o at hc
    generalize condition s' = o' at hc
    cases hc with
    | rejected hf hr => exact .rejected hf hr
    | accepted hc hr =>
      exact (ih _ _ (condition_consumes s _ _ e) hr).map fun _ _ hcs => .cons hc hcs
  · exact .accepted .nil h

/-! ## Compounds -/

theorem namespacePrefix?_like :
    L.ReadsLike (Option.Rel L.TreeLike) namespacePrefix? namespacePrefix? := by
  intro s s' h
  cases h.front with
  | nil => exact .accepted .none .nil
  | @cons t u r r' ht hr =>
    by_cases hw : t.kind = .whitespace
    · -- a blank is no prefix, whatever follows it
      have hw' : u.kind = .whitespace := ht.kind ▸ hw
      have none {t : Placed} (ht : t.kind = .whitespace) (r : Tokens) :
          namespacePrefix? (t :: r) = .accepted none (t :: r) := by
        cases r <;> simp [namespacePrefix?, ht, isNameOrAny, TokenKind.isIdent]
      rw [none hw, none hw']
      exact .accepted .none h
    · have hr := hr hw
      unfold namespacePrefix?
      cases hr.front with
      | nil =>
        dsimp only
        rw [← ht.kind]
        split
        · exact .accepted (.some (single_like .namespacePrefix ht.leaf)) .nil
        · exact .accepted .none h
      | @cons v w q q' hv hq =>
        dsimp only
        rw [← ht.kind, ← hv.kind]
        split
        · exact .accepted (.some (single_like .namespacePrefix ht.leaf)) hr
        · split
          · rename_i hb
            refine .accepted (.some (.node _ ht.index (.cons ht.leaf.tree (.cons hv.leaf.tree .nil))))
              (hq fun hw => ?_)
            rw [hw, Bool.and_eq_true_iff] at hb
            exact absurd hb.2 (by decide)
          · exact .accepted .none h

theorem elementName?_like {hasPrefix hasPrefix' : Bool} (hp : hasPrefix = hasPrefix') :
    L.ReadsLike (Option.Rel L.TreeLike) (elementName? hasPrefix) (elementName? hasPrefix') := by
  subst hp
  refine .bind (.take? (by decide)) fun name name' hn => ?_
  cases hn with
  | some hn => exact .pure (.some (single_like .elementName hn))
  | none => exact .ite (.reject fun _ _ _ => rfl) (.pure .none)

theorem optionTree_like {t u : Option Tree} (h : Option.Rel L.TreeLike t u) :
    List.Forall₂ L.TreeLike t.toList u.toList ∧ t.isSome = u.isSome := by
  cases h with
  | none => exact ⟨.nil, rfl⟩
  | some h => exact ⟨.cons h .nil, rfl⟩

theorem compound_like : L.ReadsLike L.TreeLike compound compound := by
  refine .bind namespacePrefix?_like fun nsPrefix nsPrefix' hp =>
    .bind (elementName?_like (optionTree_like hp).2) fun element element' he =>
    .bind conditions_like fun cs cs' hc => ?_
  have hall : List.Forall₂ L.TreeLike (nsPrefix.toList ++ element.toList ++ cs)
      (nsPrefix'.toList ++ element'.toList ++ cs') :=
    List.rel_append (List.rel_append (optionTree_like hp).1 (optionTree_like he).1) hc
  generalize nsPrefix.toList ++ element.toList ++ cs = parts at hall
  generalize nsPrefix'.toList ++ element'.toList ++ cs' = parts' at hall
  cases hall with
  | nil => exact .reject fun s s' h => by rw [h.found_eq]
  | cons hpart hparts => exact .pure (.node _ hpart.first (.cons hpart hparts))

/-- The combinator in front of the next compound. -/
theorem combinator?_like : L.ReadsLike (Option.Rel L.TreeLike) combinator? combinator? := by
  intro s s' h
  unfold combinator?
  obtain ⟨e, e'⟩ | ⟨t, r, u, r', e, e', ht, hw, hr⟩ := h.skipBlank_cases
  · rw [e, e']
    exact .accepted .none .nil
  · have hall : L.InputLike (t :: r) (u :: r') := .cons ht hw hr
    rw [e, e']
    dsimp only
    rw [← ht.kind]
    split
    · exact .accepted (.some (single_like .combinator ht.leaf)) hr.skipBlank
    · split
      · cases h.front with
        | nil => exact .accepted .none .nil
        | @cons b c q q' hb _ =>
          have hf := h.fault (congrArg (fun f => Fault.Cause.selector (.unexpected f)) h.found_eq)
          have hblank : Tokens.isBlank c = Tokens.isBlank b :=
            congrArg (· == TokenKind.whitespace) hb.kind.symm
          dsimp only
          rw [hblank]
          split
          · exact .accepted (.some (single_like .combinator hb.leaf)) hall
          · exact .rejected hf h
      · exact .accepted .none hall

/-! ## Selectors -/

theorem selectorTail_like : L.ReadsLike (List.Forall₂ L.TreeLike) selectorTail selectorTail := by
  intro s s' h
  refine h.byLength fun s s' h ih => ?_
  rw [selectorTail_eq, selectorTail_eq]
  have hc := combinator?_like s s' h
  generalize e : combinator? s = o at hc
  generalize combinator? s' = o' at hc
  cases hc with
  | rejected hf hr => exact .rejected hf hr
  | @accepted combinator combinator' between between' hc hb =>
    cases hc with
    | none => exact .accepted .nil hb
    | some hc =>
      have hp := compound_like between between' hb
      have hl := combinator?_advances.length_le s
      rw [e] at hl
      dsimp only
      generalize e : compound between = o at hp
      generalize compound between' = o' at hp
      cases hp with
      | rejected hf hr => exact .rejected hf hr
      | accepted hp hr =>
        exact (ih _ _ (Nat.lt_of_lt_of_le (compound_consumes _ _ _ e) hl) hr).map
          fun _ _ hmore => .cons hc (.cons hp hmore)

theorem selector_like : L.ReadsLike L.TreeLike selector selector :=
  .bind compound_like fun _ _ hp => .bind selectorTail_like fun _ _ hm =>
    .pure (.node _ hp.first (.cons hp hm))

theorem selectorListTail_like :
    L.ReadsLike (List.Forall₂ L.TreeLike) selectorListTail selectorListTail := by
  intro s s' h
  refine h.byLength fun s s' h ih => ?_
  cases h.front with
  | nil =>
    rw [selectorListTail]
    exact .accepted .nil .nil
  | @cons t u r r' ht hr =>
    rw [selectorListTail_cons, selectorListTail_cons, ← ht.kind]
    split
    · rename_i hk
      have hr := (hr (by simp [hk])).skipBlank
      have hs := selector_like _ _ hr
      have hl := skipBlank_length_le r
      generalize e : selector (Tokens.skipBlank r) = o at hs
      generalize selector (Tokens.skipBlank r') = o' at hs
      cases hs with
      | rejected hf hr => exact .rejected hf hr
      | accepted hs hq =>
        have hc := selector_consumes _ _ _ e
        exact (ih _ _ (by rw [List.length_cons]; omega) hq).map fun _ _ hmore =>
          .cons ht.leaf.tree (.cons hs hmore)
    · exact .accepted .nil h

theorem selectorList_like : L.ReadsLike L.TreeLike selectorList selectorList :=
  .bind selector_like fun _ _ hs => .bind selectorListTail_like fun _ _ hm =>
    .pure (.node _ hs.first (.cons hs hm))

/-- The selectors of a rule and the brace behind them. -/
theorem rulePrelude_like :
    L.ReadsLike (fun p q => L.TreeLike p.1 q.1 ∧ L.LeafLike p.2 q.2) rulePrelude rulePrelude :=
  .bind selectorList_like fun _ _ hs =>
    .bind (.take (by decide) fun s s' h => by rw [h.found_eq]) fun _ _ hb => .pure ⟨hs, hb⟩

end Stylesheet.Likeness
