import Stylesheet.Cursor.Selector
import Stylesheet.Proofs.Cursor.Follows
import Stylesheet.Proofs.Grammar.First
import Stylesheet.Proofs.Grammar.StableProductions

/-!
# Selectors through a cursor

Each attempt follows its production. A selector list is read up to the brace of its block, which is
left, so its production is the one that looks for the brace and takes nothing (`selectorsAhead`).
-/

namespace Stylesheet.Cursor

open Grammar Production

variable {i : Input} {t : Placed} {s rest : Tokens} {ps : List Problem}

/-! ## Conditions -/

theorem follows_idSelector :
    Follows i idSelector (t :: rest) ps (Grammar.idSelector (t :: rest)) := by
  rw [idSelector]
  apply Follows.bind
  · apply Follows.expect rfl
    intro hs
    rw [current_before hs]
    exact malformedSelector_before hs ps (.noId t.token.text)
  · intro id r _
    exact .pure _

theorem follows_classSelector (hk : t.kind = .dot) :
    Follows i classSelector (t :: rest) ps (Grammar.classSelector (t :: rest)) := by
  rw [classSelector]
  apply Follows.bind (.token_take (by rw [hk]; rfl))
  intro dot r _
  apply Follows.bind (.expect rfl fun hs => malformedSelector_before hs _ .noClassName)
  intro name r _
  exact .pure _

theorem follows_attributeMatcher :
    Follows i attributeSelector.attributeMatcher s ps (attributeMatcher s) := by
  rw [attributeSelector.attributeMatcher]
  apply Follows.bind (.optional rfl)
  intro comparison r _
  cases comparison with
  | none => exact .pure []
  | some comparison =>
    apply Follows.bind .blanks
    intro _ r _
    apply Follows.bind (.expect rfl fun hs => malformedSelector_before hs _ .noAttributeValue)
    intro value r _
    apply Follows.bind .blanks
    intro _ r _
    exact .pure _

theorem follows_attributeSelector (hk : t.kind = .opening .square) :
    Follows i attributeSelector (t :: rest) ps (Grammar.attributeSelector (t :: rest)) := by
  rw [attributeSelector]
  apply Follows.bind (.token_take (by rw [hk]; rfl))
  intro bracket r _
  apply Follows.bind .blanks
  intro _ r _
  apply Follows.bind (.expect rfl fun hs => malformedSelector_before hs _ .noAttributeName)
  intro name r _
  apply Follows.bind .blanks
  intro _ r _
  apply Follows.bind follows_attributeMatcher
  intro matcher r _
  apply Follows.bind (.expect rfl fun hs => malformedSelector_before hs _ .noClosingBracket)
  intro close r _
  exact .pure _

/-- A round of an argument: one token. -/
def argumentStep : List Tree × Nat → Production (Step (List Tree × Nat) (List Tree))
  | (children, depth) => fun s =>
    match s with
    | [] => .rejected (Tokens.fault [] (.selector .openArgument)) []
    | t :: rest => .accepted (argumentNext (children ++ [t.leaf]) depth t.kind) rest

theorem argumentRounds (i : Input) : Attempts i argumentRound argumentStep where
  follows := by
    rintro ⟨children, depth⟩ s ps
    apply Follows.of_leaves
    intro hs
    apply Follows.get
    rw [atEof_before hs]
    cases s with
    | nil => exact malformedSelector_before hs ps .openArgument ▸ .throw _
    | cons t rest =>
      rw [kind_cons hs]
      exact .step .token (.pure _)
  shorter := by
    rintro ⟨children, depth⟩ s next rest h
    cases s with
    | nil => contradiction
    | cons t left =>
      cases (Outcome.accepted.inj h).2
      exact Nat.lt_succ_self _

/-- The argument behind the trees in front of it. -/
def argumentBehind (children : List Tree) (depth : Nat) : Production (List Tree) := fun s =>
  (pseudoArgument depth s).map (children ++ ·)

theorem follows_argument (children : List Tree) (depth : Nat) :
    Follows i (attempt argumentRound (children, depth)) s ps (argumentBehind children depth s) := by
  apply (argumentRounds i).attempt (p := fun state => argumentBehind state.1 state.2)
  rintro ⟨children, depth⟩ s
  cases s with
  | nil => rfl
  | cons t rest =>
    have hnext (d : Nat) : ((pseudoArgument d rest).map (t.leaf :: ·)).map (children ++ ·) =
        argumentBehind (children ++ [t.leaf]) d rest := by
      rw [argumentBehind]
      cases pseudoArgument d rest <;> simp [Outcome.map]
    rw [argumentBehind]
    simp only [pseudoArgument, argumentStep, argumentNext, beq_iff_eq]
    by_cases ho : t.kind.opens?.isSome = true
    · rw [if_pos ho, if_pos ho]
      exact hnext _
    · rw [if_neg ho, if_neg ho]
      by_cases hc : t.kind = .closing .paren
      · rw [if_pos hc, if_pos hc]
        by_cases hd : depth = 0
        · rw [if_pos hd, if_pos hd]
          rfl
        · rw [if_neg hd, if_neg hd]
          exact hnext _
      · rw [if_neg hc, if_neg hc]
        exact hnext _

theorem follows_pseudoSelector (hk : t.kind = .colon) :
    Follows i pseudoSelector (t :: rest) ps (Grammar.pseudoSelector (t :: rest)) := by
  rw [pseudoSelector]
  apply Follows.bind (.token_take (by rw [hk]; rfl))
  intro colon r _
  apply Follows.bind (.optional rfl)
  intro second r _
  apply Follows.of_leaves
  intro hs
  apply Follows.get
  rw [bind_apply]
  cases r with
  | nil =>
    rw [kind_nil hs]
    exact malformedSelector_before hs ps .noPseudoName ▸ .throw _
  | cons t rest =>
    rw [kind_cons hs, pseudoName]
    cases hk : t.kind with
    | ident name => exact .step .token (.pure _)
    | function name =>
      apply Follows.step .token
      have ha : Follows i (attempt argumentRound (colon :: second.toList ++ [t.leaf], 0)) rest ps
          (argumentBehind (colon :: second.toList ++ [t.leaf]) 0 rest) := follows_argument _ 0
      have h := ha.bind (g := fun children => pure (Tree.node .pseudoSelector colon.first children))
        fun children left _ => .pure _
      rw [bind_apply, argumentBehind] at h
      dsimp only
      cases hp : pseudoArgument 0 rest with
      | accepted more left =>
        rw [hp] at h
        simpa [Outcome.map] using h
      | rejected f left =>
        rw [hp] at h
        exact h
    | _ => exact malformedSelector_before hs ps .noPseudoName ▸ .throw _

theorem follows_condition {m : Attempt Tree} (h : condition? t.kind = some m) :
    Follows i m (t :: rest) ps (condition (t :: rest)) := by
  rw [condition_cons]
  cases hk : t.kind with
  | hash name isId =>
    rw [hk] at h
    cases h
    exact follows_idSelector
  | dot =>
    rw [hk] at h
    cases h
    exact follows_classSelector hk
  | opening b =>
    rw [hk] at h
    cases b <;> cases h
    exact follows_attributeSelector hk
  | colon =>
    rw [hk] at h
    cases h
    exact follows_pseudoSelector hk
  | _ =>
    rw [hk] at h
    contradiction

theorem condition?_isSome (k : TokenKind) : (condition? k).isSome = startsCondition k := by
  cases k with
  | opening b => cases b <;> rfl
  | _ => rfl

/-- A round of the conditions of a compound. -/
def conditionStep (children : List Tree) : Production (Step (List Tree) (List Tree)) := fun s =>
  if s.startsWith startsCondition then (condition s).map fun c => .again (children ++ [c])
  else .accepted (.done children) s

theorem conditionRounds (i : Input) : Attempts i conditionRound conditionStep where
  follows children s ps := by
    apply Follows.of_leaves
    intro hs
    apply Follows.get
    rw [conditionStep]
    cases s with
    | nil =>
      rw [kind_nil hs]
      exact .pure _
    | cons t rest =>
      rw [kind_cons hs, Tokens.startsWith, ← condition?_isSome]
      cases hm : condition? t.kind with
      | none => exact .pure _
      | some m => exact (follows_condition hm).map _
  shorter children s next rest h := by
    rw [conditionStep] at h
    split at h
    · obtain ⟨c, e, -⟩ := map_eq_accepted h
      exact condition_consumes s c rest e
    · cases h

theorem follows_conditions (children : List Tree) :
    Follows i (attempt conditionRound children) s ps
      ((conditions >>= fun more => pure (children ++ more)) s) := by
  apply (conditionRounds i).attempt (p := fun children => conditions >>= fun more => pure (children ++ more))
  intro children s
  rw [bind_apply, conditions_eq, conditionStep]
  by_cases h : s.startsWith startsCondition = true
  · rw [if_pos h, if_pos h]
    cases condition s with
    | accepted c rest =>
      simp only [Outcome.map, behindAttempt_again, bind_apply]
      cases conditions rest <;> simp
    | rejected f rest => rfl
  · rw [if_neg h, if_neg h]
    simp

/-! ## Compounds -/

theorem follows_namespacePrefix? :
    Follows i (liftM namespacePrefix?) s ps (Grammar.namespacePrefix? s) := by
  apply Follows.of_leaves
  intro hs
  match s with
  | [] =>
    apply Follows.lift (a := none)
    apply Gives.get
    rw [kind_nil hs]
    exact .pure none
  | [t] =>
    rw [Grammar.namespacePrefix?]
    by_cases hb : (t.kind == .bar) = true
    · rw [if_pos hb]
      apply Follows.lift
      apply Gives.get
      rw [kind_cons hs, if_pos hb]
      exact Gives.token.step (.pure _)
    · rw [if_neg hb]
      apply Follows.lift
      apply Gives.get
      rw [kind_cons hs, if_neg hb, kindAhead?_before hs, if_neg (by simp [Tokens.kind?])]
      exact .pure none
  | t :: u :: rest =>
    rw [Grammar.namespacePrefix?]
    by_cases hb : (t.kind == .bar) = true
    · rw [if_pos hb]
      apply Follows.lift
      apply Gives.get
      rw [kind_cons hs, if_pos hb]
      exact Gives.token.step (.pure _)
    · rw [if_neg hb]
      have hk : (isNameOrAny t.kind && u.kind == .bar) =
          (isNameOrAny t.kind && (i.before (t :: u :: rest) ps).kindAhead? 1 == some .bar) := by
        rw [kindAhead?_before hs]
        rfl
      rw [hk]
      split <;> rename_i hc
      · apply Follows.lift
        apply Gives.get
        rw [kind_cons hs, if_neg hb, if_pos hc]
        exact Gives.token.step (Gives.token.step (.pure _))
      · apply Follows.lift
        apply Gives.get
        rw [kind_cons hs, if_neg hb, if_neg hc]
        exact .pure none

theorem follows_elementName? (hasPrefix : Bool) :
    Follows i (elementName? hasPrefix) s ps (Grammar.elementName? hasPrefix s) := by
  apply Follows.of_leaves
  intro hs
  have hrefuse : Follows i (refuse (fun c => hasPrefix && !isNameOrAny c.kind)
      (·.malformedSelector "expected element name after '|'")) s ps _ :=
    .refuse fun hs => malformedSelector_before hs ps .noElementName
  rw [startsWith_before (p := isNameOrAny) rfl hs] at hrefuse
  rw [elementName?, Grammar.elementName?, bind_apply]
  cases hn : s.startsWith isNameOrAny with
  | true =>
    obtain ⟨t, rest, rfl, hk⟩ := Tokens.exists_of_startsWith hn
    have ht : take? isNameOrAny (t :: rest) = .accepted (some t.leaf) rest := by
      rw [take?_cons, if_pos hk]
    rw [hn, if_neg (by simp)] at hrefuse
    rw [ht]
    exact Gives.behind hrefuse (Follows.step (.optional rfl ht) (.pure _))
  | false =>
    have ht : take? isNameOrAny s = .accepted none s := by
      cases s with
      | nil => rfl
      | cons t rest =>
        rw [take?_cons]
        exact if_neg (Bool.eq_false_iff.1 hn)
    rw [ht]
    cases hasPrefix with
    | true =>
      rw [hn, if_pos (by simp)] at hrefuse
      exact Gives.stops hrefuse
    | false =>
      rw [if_neg (by simp)] at hrefuse
      exact Gives.behind hrefuse (Follows.step (.optional rfl ht) (.pure _))

/-- The trees of a compound. -/
def compoundRow : Production (List Tree) := do
  let nsPrefix ← Grammar.namespacePrefix?
  let element ← Grammar.elementName? nsPrefix.isSome
  let more ← conditions
  return nsPrefix.toList ++ element.toList ++ more

/-- A compound has at least one tree. -/
def compoundOf (children : List Tree) : Production Tree :=
  match children with
  | [] => reject fun s => .selector (.noSelector s.found)
  | part :: parts => return .node .simpleSelector part.first (part :: parts)

theorem compound_eq : Grammar.compound = compoundRow >>= compoundOf := by
  simp only [compoundRow, bind_assoc, pure_bind]
  rfl

theorem follows_compoundParts : Follows i compoundParts s ps (compoundRow s) := by
  rw [compoundParts]
  apply Follows.bind follows_namespacePrefix?
  intro nsPrefix r _
  apply Follows.bind (follows_elementName? _)
  intro element r _
  exact follows_conditions _

theorem follows_compound : Follows i compound s ps (Grammar.compound s) := by
  apply Follows.of_leaves
  intro hs
  rw [compound, compound_eq]
  apply Follows.get
  apply Follows.bind follows_compoundParts
  intro children r hr
  apply Follows.of_leaves
  intro hr'
  cases children with
  | nil =>
    apply Gives.stops
    apply Follows.refuse
    intro _
    rw [found_before hr']
    exact malformedSelector_before hr' ps (.noSelector r.found)
  | cons part parts =>
    -- the place of the compound is that of its first part
    have hc : Grammar.compound s = .accepted (.node .simpleSelector part.first (part :: parts)) r := by
      rw [compound_eq, bind_apply, hr]
      rfl
    obtain ⟨t, left, rfl, hfirst⟩ := compound_heads s _ r hc
    rw [pos_cons hs, ← hfirst]
    exact Gives.behind (.allow rfl) (.pure _)

/-! ## Selectors -/

theorem follows_combinator? : Follows i combinator? s ps (Grammar.combinator? s) := by
  apply Follows.of_leaves
  intro hs
  have hb := hs.of_suffix (Tokens.skipBlank_suffix s)
  rw [combinator?, Grammar.combinator?]
  apply Follows.step .skipBlanks
  apply Follows.get
  cases hk : Tokens.skipBlank s with
  | nil =>
    rw [hk] at hb
    rw [kind_nil hb]
    exact .pure none
  | cons t rest =>
    rw [hk] at hb
    rw [kind_cons hb]
    dsimp only
    split
    · apply Follows.step .token
      apply Follows.step .blanks
      exact .pure _
    · split
      · cases s with
        | nil => contradiction
        | cons b left =>
          rw [blankIndex?]
          dsimp only
          by_cases hw : Tokens.isBlank b = true
          · rw [if_pos hw, if_pos hw]
            exact .pure _
          · rw [if_neg hw, if_neg hw]
            -- without a blank, nothing was skipped
            have hsame : Tokens.skipBlank (b :: left) = b :: left := by
              rw [Tokens.skipBlank, List.dropWhile_cons, if_neg hw]
            rw [← hk, hsame] at hb ⊢
            rw [found_before hb]
            exact malformedSelector_before hb ps (.unexpected _) ▸ .throw _
      · exact .pure none

/-- A round of a selector: a combinator and a compound. -/
def selectorStep (children : List Tree) : Production (Step (List Tree) (List Tree)) := do
  match ← Grammar.combinator? with
  | some combinator =>
    let part ← Grammar.compound
    return .again (children ++ [combinator, part])
  | none => return .done children

theorem selectorRounds (i : Input) : Attempts i selectorRound selectorStep where
  follows children s ps := by
    rw [selectorRound]
    apply Follows.bind follows_combinator?
    intro combinator r _
    cases combinator with
    | none => exact .pure _
    | some combinator =>
      apply Follows.bind follows_compound
      intro part r _
      exact .pure _
  shorter children s next rest h := by
    obtain ⟨combinator, between, hc, h⟩ := bind_eq_accepted h
    have hs := combinator?_advances.length_le s
    rw [hc] at hs
    cases combinator with
    | none => cases h
    | some combinator =>
      obtain ⟨part, left, hp, h⟩ := bind_eq_accepted h
      cases h
      exact Nat.lt_of_lt_of_le (compound_consumes between part rest hp) hs

theorem follows_selectorTail (children : List Tree) :
    Follows i (attempt selectorRound children) s ps
      ((selectorTail >>= fun more => pure (children ++ more)) s) := by
  apply (selectorRounds i).attempt (p := fun children => selectorTail >>= fun more => pure (children ++ more))
  intro children s
  rw [bind_apply, selectorTail_eq, selectorStep, bind_apply]
  cases Grammar.combinator? s with
  | rejected f rest => rfl
  | accepted combinator between =>
    cases combinator with
    | none => simp
    | some combinator =>
      simp only [bind_apply]
      cases Grammar.compound between with
      | rejected f rest => rfl
      | accepted part rest =>
        simp only [pure_apply, behindAttempt_again, bind_apply]
        cases selectorTail rest <;> simp [Outcome.map]

theorem follows_selector : Follows i selector s ps (Grammar.selector s) := by
  apply Follows.of_leaves
  intro hs
  rw [selector]
  apply Follows.get
  apply Follows.bind follows_compound
  intro part r hpart
  obtain ⟨t, left, rfl, hfirst⟩ := compound_heads s part r hpart
  rw [pos_cons hs, ← hfirst]
  exact (follows_selectorTail [part]).collect (Tree.node .selector part.first)

/-! ## Selector lists -/

/-- The brace of a block, which is left. -/
def blockAhead : Production Unit :=
  facing (· == .opening .brace) fun s => .selector (.unexpected s.found)

/-- Further selectors behind the trees in front of them, up to the brace of their block. -/
def furtherSelectors (children : List Tree) : Production (List Tree) := do
  let more ← selectorListTail
  blockAhead
  return children ++ more

/-- As `furtherSelectors`, with a selector to come. -/
def selectorsBehind (children : List Tree) : Production (List Tree) := do
  let first ← Grammar.selector
  furtherSelectors (children ++ [first])

/-- A round of a selector list: a selector, and a comma or the end of the list. -/
def selectorListStep (children : List Tree) : Production (Step (List Tree) (List Tree)) := do
  let next ← Grammar.selector
  match ← take? (· == .comma) with
  | some comma =>
    blank
    return .again (children ++ [next, comma])
  | none =>
    blockAhead
    return .done (children ++ [next])

theorem follows_blockAhead : Follows i (refuse (fun c => !(c.kind == .opening .brace))
    fun c => c.malformedSelector ("unexpected " ++ c.found)) s ps (blockAhead s) := by
  apply Follows.facing rfl
  intro hs
  rw [found_before hs]
  exact malformedSelector_before hs ps (.unexpected s.found)

theorem selectorListRounds (i : Input) : Attempts i selectorListRound selectorListStep where
  follows children s ps := by
    rw [selectorListRound]
    apply Follows.bind follows_selector
    intro next r _
    apply Follows.bind (.optional rfl)
    intro comma r _
    cases comma with
    | some comma =>
      apply Follows.bind .blanks
      intro _ r _
      exact .pure _
    | none =>
      apply Follows.bind follows_blockAhead
      intro _ r _
      exact .pure _
  shorter children s next rest h := by
    obtain ⟨first, r, hf, h⟩ := bind_eq_accepted h
    have hl := selector_consumes s first r hf
    obtain ⟨comma, r', hc, h⟩ := bind_eq_accepted h
    have hl' := (Advances.take? (· == .comma)).length_le r
    rw [hc] at hl'
    cases comma with
    | some comma =>
      cases h
      exact Nat.lt_of_le_of_lt (Nat.le_trans (skipBlank_length_le r') hl') hl
    | none =>
      obtain ⟨_, _, -, h⟩ := bind_eq_accepted h
      cases h

theorem furtherSelectors_eq (children : List Tree) (s : Tokens) :
    furtherSelectors children s = (do
      match ← take? (· == .comma) with
      | some comma =>
        blank
        selectorsBehind (children ++ [comma])
      | none =>
        blockAhead
        return children : Production (List Tree)) s := by
  rw [furtherSelectors, bind_apply, bind_apply]
  cases s with
  | nil =>
    rw [selectorListTail]
    simp only [bind_apply, take?_nil, List.append_nil]
  | cons comma rest =>
    rw [selectorListTail_cons, take?_cons]
    by_cases hc : comma.kind = .comma
    · rw [if_pos hc, if_pos (beq_iff_eq.2 hc)]
      simp only [bind_apply, blank_apply, selectorsBehind, furtherSelectors]
      cases Grammar.selector (Tokens.skipBlank rest) with
      | rejected f left => rfl
      | accepted next left =>
        dsimp only
        cases selectorListTail left <;> simp [Outcome.map]
    · rw [if_neg hc, if_neg (mt beq_iff_eq.1 hc)]
      simp only [bind_apply, List.append_nil]

theorem follows_selectorsBehind (children : List Tree) :
    Follows i (attempt selectorListRound children) s ps (selectorsBehind children s) := by
  apply (selectorListRounds i).attempt (p := selectorsBehind)
  intro children s
  rw [selectorsBehind, selectorListStep, bind_apply, bind_apply]
  cases Grammar.selector s with
  | rejected f rest => rfl
  | accepted next rest =>
    dsimp only
    rw [furtherSelectors_eq, bind_apply, bind_apply]
    cases take? (· == .comma) rest with
    | rejected f rest => rfl
    | accepted comma rest =>
      cases comma with
      | some comma => simp
      | none =>
        simp only [bind_apply]
        cases blockAhead rest <;> rfl

/-- The selectors of a rule, up to the brace of its block. -/
def selectorsAhead : Production Tree := do
  let selectors ← Grammar.selectorList
  blockAhead
  return selectors

theorem follows_selectorList : Follows i selectorList s ps (selectorsAhead s) := by
  apply Follows.of_leaves
  intro hs
  rw [selectorList]
  apply Follows.get
  apply (follows_selectorsBehind []).map_eq (Tree.node .selectorList (i.before s ps).pos)
  simp only [selectorsBehind, selectorsAhead, furtherSelectors, Grammar.selectorList, bind_assoc,
    pure_bind]
  rw [bind_apply, bind_apply]
  cases hf : Grammar.selector s with
  | rejected f rest => rfl
  | accepted first rest =>
    obtain ⟨t, left, rfl, hfirst⟩ := selector_heads s first rest hf
    rw [pos_cons hs, ← hfirst]
    simp only [bind_apply]
    cases selectorListTail rest with
    | rejected f left => rfl
    | accepted more left =>
      dsimp only
      cases blockAhead left <;> rfl

/-- Behind the selectors of a rule comes a brace. -/
theorem selectorsAhead_accepted {selectors : Tree} (h : selectorsAhead s = .accepted selectors rest) :
    Grammar.selectorList s = .accepted selectors rest ∧
      ∃ brace left, rest = brace :: left ∧ (brace.kind == .opening .brace) = true := by
  obtain ⟨list, between, hl, h⟩ := bind_eq_accepted h
  obtain ⟨_, left, hb, h⟩ := bind_eq_accepted h
  cases h
  have hk := facing_eq_accepted hb
  exact ⟨by rwa [hk.1] at hl, Tokens.exists_of_startsWith hk.2⟩

/-- What a rule reads in front of its block: the list, and then the brace. -/
theorem rulePrelude_eq : rulePrelude = (do
    let selectors ← selectorsAhead
    let brace ← take (· == .opening .brace) fun s => .selector (.unexpected s.found)
    return (selectors, brace)) := by
  simp only [selectorsAhead, blockAhead, bind_assoc, pure_bind, facing_take]
  rfl

end Stylesheet.Cursor
