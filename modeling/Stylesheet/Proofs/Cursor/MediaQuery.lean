import Stylesheet.Cursor.MediaQuery
import Stylesheet.Proofs.Cursor.Value

/-!
# Media queries through a cursor

What is left of a query depends on what there is of it (`queryBehind`): its head, further features, or
the feature behind `and`. A query ends in front of a comma or of the brace of the block, and a list of
queries in front of the brace.
-/

namespace Stylesheet.Cursor

open Grammar Production

variable {i : Input} {t : Placed} {s rest : Tokens} {ps : List Problem}

/-! ## Features -/

theorem follows_featureValue : Follows i mediaFeature.featureValue s ps (featureValue s) := by
  rw [mediaFeature.featureValue]
  apply Follows.bind (.optional rfl)
  intro colon r _
  cases colon with
  | none => exact .pure []
  | some colon =>
    apply Follows.bind .blanks
    intro _ r _
    apply Follows.bind (follows_value i false r ps)
    intro value r _
    apply Follows.bind .blanks
    intro _ r _
    exact .pure _

theorem follows_mediaFeature (hk : (t.kind == .opening .paren) = true) :
    Follows i mediaFeature (t :: rest) ps (Grammar.mediaFeature (t :: rest)) := by
  rw [mediaFeature]
  apply Follows.bind (.token_take hk)
  intro paren r _
  apply Follows.bind .blanks
  intro _ r _
  apply Follows.bind
  · apply Follows.expect rfl
    intro hs
    rw [found_before hs]
    exact malformedMedia_before hs ps (.noFeatureName _)
  intro name r _
  apply Follows.bind .blanks
  intro _ r _
  apply Follows.bind follows_featureValue
  intro value r _
  apply Follows.bind
  · apply Follows.expect rfl
    intro hs
    rw [found_before hs]
    exact malformedMedia_before hs ps (.noClosingParen _)
  intro close r _
  exact .pure _

/-- Without a parenthesis there is no feature. -/
theorem mediaFeature_rejected (h : ¬ s.startsWith (· == .opening .paren) = true) :
    Grammar.mediaFeature s = .rejected (s.fault (unexpectedInMedia s)) s := by
  rw [Grammar.mediaFeature, bind_apply]
  cases s with
  | nil => rfl
  | cons t rest =>
    rw [take_cons, if_neg (show ¬ (t.kind == .opening .paren) = true from h)]

/-! ## Queries -/

/-- The comma or the brace behind a query, which is left. -/
def queryEnd : Production Unit :=
  facing (fun k => k == .comma || k == .opening .brace) unexpectedInMedia

/-- Further features behind the trees in front of them, up to the end of the query. -/
def featuresBehind (children : List Tree) : Production (List Tree) := do
  let more ← furtherFeatures
  queryEnd
  return children ++ more

/-- What is left of a query, behind what there is of it. -/
def queryBehind (q : QueryState) : Production (List Tree) :=
  if q.needFeature then do
    blank
    let feature ← Grammar.mediaFeature
    featuresBehind (q.children ++ [feature])
  else if q.isBegun then featuresBehind q.children
  else if q.qualifier then do
    blank
    let medium ← take isMediaType unexpectedInMedia
    featuresBehind (q.children ++ [medium])
  else do
    let head ← mediaQueryHead
    featuresBehind (q.children ++ head)

/-- A round of a query in front of the tokens `s`: `and`, a qualifier or a medium, a feature, or the
    end of the query. -/
def queryStepAt (q : QueryState) (s : Tokens) : Production (Step QueryState (List Tree)) :=
  if s.startsWith isAnd && q.isBegun && !q.needFeature then do
    let and ← take isAnd unexpectedInMedia
    return .again { q with children := q.children ++ [and], needFeature := true }
  else if s.startsWith isMediaType && !q.isBegun then do
    let word ← take isMediaType unexpectedInMedia
    let children := q.children ++ [word]
    if startsQualified s && !q.qualifier then return .again { q with children, qualifier := true }
    else return .again { q with children, medium := true }
  else if s.startsWith (· == .opening .paren) && (q.needFeature || q.atStart) then do
    let feature ← Grammar.mediaFeature
    return .again
      { q with children := q.children ++ [feature], feature := true, needFeature := false }
  else if q.isBegun && !q.needFeature then do
    queryEnd
    return .done q.children
  else reject unexpectedInMedia

def queryStep (q : QueryState) : Production (Step QueryState (List Tree)) := do
  blank
  let s ← ahead
  queryStepAt q s

/-- Whether a word is a qualifier, from the word and what comes behind it. -/
theorem startsQualified_before (hs : i.Leaves (t :: rest)) (ps : List Problem) :
    (isQualifier (i.before (t :: rest) ps).kind &&
      ((i.before (t :: rest) ps).nextKind?.map TokenKind.isIdent).getD false) =
      startsQualified (t :: rest) := by
  rw [kind_cons hs, nextKind?_before hs, startsQualified]
  cases Tokens.skipBlank rest <;> rfl

theorem queryRounds (i : Input) : Attempts i queryRound queryStep where
  follows q s ps := by
    rw [queryRound]
    apply Follows.bind .blanks
    intro _ r hr
    cases hr
    apply Follows.of_leaves
    intro hs
    apply Follows.get
    rw [bind_apply, ahead_apply]
    dsimp only
    rw [queryStepAt]
    generalize Tokens.skipBlank s = r at hs ⊢
    have hmedium : ((i.before r ps).kind.isIdent && !isAnd (i.before r ps).kind) =
        r.startsWith isMediaType :=
      startsWith_before (p := isMediaType) rfl hs ps
    have hend : ((i.before r ps).kind == .comma || (i.before r ps).kind == .opening .brace) =
        r.startsWith fun k => k == .comma || k == .opening .brace :=
      startsWith_before (p := fun k => k == .comma || k == .opening .brace) rfl hs ps
    have hthrow : (i.before r ps).malformedMedia ("unexpected " ++ (i.before r ps).found) =
        i.error (r.fault (unexpectedInMedia r)) := by
      rw [found_before hs]
      exact malformedMedia_before hs ps (.unexpected _)
    rw [hmedium, hend, hthrow, startsWith_before (p := isAnd) rfl hs,
      startsWith_before (p := (· == .opening .paren)) rfl hs]
    by_cases h₁ : (r.startsWith isAnd && q.isBegun && !q.needFeature) = true
    · rw [if_pos h₁, if_pos h₁]
      obtain ⟨t, rest, rfl, hk⟩ := Tokens.exists_of_startsWith (Bool.and_eq_true_iff.1
        (Bool.and_eq_true_iff.1 h₁).1).1
      apply Follows.bind (.token_take hk)
      intro and r _
      exact .pure _
    rw [if_neg h₁, if_neg h₁]
    by_cases h₂ : (r.startsWith isMediaType && !q.isBegun) = true
    · rw [if_pos h₂, if_pos h₂]
      obtain ⟨t, rest, rfl, hk⟩ := Tokens.exists_of_startsWith (Bool.and_eq_true_iff.1 h₂).1
      rw [← startsQualified_before hs ps, Bool.and_right_comm]
      apply Follows.bind (.token_take hk)
      intro word r _
      split
      · exact .pure _
      · exact .pure _
    rw [if_neg h₂, if_neg h₂]
    by_cases h₃ : (r.startsWith (· == .opening .paren) && (q.needFeature || q.atStart)) = true
    · rw [if_pos h₃, if_pos h₃]
      obtain ⟨t, rest, rfl, hk⟩ := Tokens.exists_of_startsWith (Bool.and_eq_true_iff.1 h₃).1
      apply Follows.bind (follows_mediaFeature hk)
      intro feature r _
      exact .pure _
    -- only a comma or the brace may come now, and only where the query may end
    rw [if_neg h₃, if_neg h₃, Bool.and_assoc, Bool.and_comm (!q.needFeature)]
    cases hb : q.isBegun && !q.needFeature with
    | false =>
      rw [Bool.and_false]
      exact .throw _
    | true =>
      rw [Bool.and_true, if_pos rfl, bind_apply, queryEnd, facing]
      cases r.startsWith (fun k => k == .comma || k == .opening .brace) with
      | true => exact .pure _
      | false => exact .throw _
  shorter q s next rest h := by
    obtain ⟨_, r, hr, h⟩ := bind_eq_accepted h
    cases hr
    apply Nat.lt_of_lt_of_le _ (skipBlank_length_le s)
    rw [bind_apply, ahead_apply] at h
    dsimp only at h
    rw [queryStepAt] at h
    split at h
    · exact Consumes.bind (.take _ _) (fun _ => .pure _) _ _ _ h
    · split at h
      · exact Consumes.bind (.take _ _) (fun _ => .ite (.pure _) (.pure _)) _ _ _ h
      · split at h
        · exact Consumes.bind mediaFeature_consumes (fun _ => .pure _) _ _ _ h
        · split at h
          · obtain ⟨_, _, -, h⟩ := bind_eq_accepted h
            cases h
          · cases h

/-- A feature has to come only behind `and`, so there is a medium or a feature. -/
def QueryState.IsRegular (q : QueryState) : Prop := q.needFeature = true → q.isBegun = true

theorem queryStep_isRegular {q next : QueryState} (hq : q.IsRegular)
    (h : queryStep q s = .accepted (.again next) rest) : next.IsRegular := by
  obtain ⟨_, r, hr, h⟩ := bind_eq_accepted h
  rw [bind_apply, ahead_apply] at h
  dsimp only at h
  rw [queryStepAt] at h
  split at h
  · rename_i h₁
    obtain ⟨_, _, -, h⟩ := bind_eq_accepted h
    cases h
    exact fun _ => (Bool.and_eq_true_iff.1 (Bool.and_eq_true_iff.1 h₁).1).2
  · split at h
    · obtain ⟨_, _, -, h⟩ := bind_eq_accepted h
      split at h
      · cases h
        exact hq
      · cases h
        exact fun _ => rfl
    · split at h
      · obtain ⟨_, _, -, h⟩ := bind_eq_accepted h
        cases h
        exact nofun
      · split at h
        · obtain ⟨_, _, -, h⟩ := bind_eq_accepted h
          cases h
        · cases h

/-- The features of a query, one round at a time. -/
theorem featuresBehind_eq (children : List Tree) (s : Tokens) :
    featuresBehind children s = (do
      blank
      let s ← ahead
      if s.startsWith isAnd then
        let and ← take isAnd unexpectedInMedia
        blank
        let feature ← Grammar.mediaFeature
        featuresBehind (children ++ [and] ++ [feature])
      else
        queryEnd
        return children : Production (List Tree)) s := by
  rw [featuresBehind, bind_apply, furtherFeatures_eq]
  simp only [bind_apply, blank_apply, ahead_apply]
  by_cases h : (Tokens.skipBlank s).startsWith isAnd = true
  · obtain ⟨t, rest, hs, hk⟩ := Tokens.exists_of_startsWith h
    rw [if_pos h, if_pos h, hs, furtherFeature]
    simp only [bind_apply, blank_apply, take_cons, if_pos hk]
    cases Grammar.mediaFeature (Tokens.skipBlank rest) with
    | rejected f left => rfl
    | accepted feature left =>
      simp only [featuresBehind, bind_apply, pure_apply]
      cases furtherFeatures left <;> simp [Outcome.map]
  · rw [if_neg h, if_neg h]
    simp

section

variable {q : QueryState}

theorem queryBehind_needFeature (hn : q.needFeature = true) : queryBehind q = (do
    blank
    let feature ← Grammar.mediaFeature
    featuresBehind (q.children ++ [feature])) :=
  if_pos hn

theorem queryBehind_isBegun (hn : q.needFeature = false) (hb : q.isBegun = true) :
    queryBehind q = featuresBehind q.children := by
  rw [queryBehind, if_neg (Bool.eq_false_iff.1 hn), if_pos hb]

theorem queryBehind_qualifier (hn : q.needFeature = false) (hb : q.isBegun = false)
    (hq : q.qualifier = true) : queryBehind q = (do
      blank
      let medium ← take isMediaType unexpectedInMedia
      featuresBehind (q.children ++ [medium])) := by
  rw [queryBehind, if_neg (Bool.eq_false_iff.1 hn), if_neg (Bool.eq_false_iff.1 hb), if_pos hq]

theorem queryBehind_start (hn : q.needFeature = false) (hb : q.isBegun = false)
    (hq : q.qualifier = false) : queryBehind q = (do
      let head ← mediaQueryHead
      featuresBehind (q.children ++ head)) := by
  rw [queryBehind, if_neg (Bool.eq_false_iff.1 hn), if_neg (Bool.eq_false_iff.1 hb),
    if_neg (Bool.eq_false_iff.1 hq)]

theorem QueryState.atStart_eq (q : QueryState) : q.atStart = (!q.qualifier && !q.isBegun) := by
  rw [atStart, isBegun, Bool.not_or, Bool.and_assoc]

/-- Behind `and`. -/
theorem queryBehind_eq_needFeature (hn : q.needFeature = true) (hb : q.isBegun = true) (s : Tokens) :
    queryBehind q s = behindAttempt queryBehind (queryStepAt q s.skipBlank s.skipBlank) := by
  rw [queryBehind_needFeature hn, queryStepAt, if_neg (by simp [hn]), if_neg (by simp [hb]), bind_apply,
    blank_apply]
  dsimp only
  rw [bind_apply]
  by_cases hp : s.skipBlank.startsWith (· == .opening .paren) = true
  · rw [if_pos (by simp [hp, hn]), bind_apply]
    cases Grammar.mediaFeature (Tokens.skipBlank s) with
    | rejected f left => rfl
    | accepted feature left =>
      have hnext := queryBehind_isBegun (q := { q with
        children := q.children ++ [feature], feature := true, needFeature := false }) rfl (by
          simp [QueryState.isBegun])
      exact congrFun hnext.symm left
  · rw [mediaFeature_rejected hp, if_neg (by simp [hp]), if_neg (by simp [hn])]
    rfl

/-- Behind a medium or a feature. -/
theorem queryBehind_eq_isBegun (hn : q.needFeature = false) (hb : q.isBegun = true) (s : Tokens) :
    queryBehind q s = behindAttempt queryBehind (queryStepAt q s.skipBlank s.skipBlank) := by
  rw [queryBehind_isBegun hn hb, featuresBehind_eq, bind_apply, blank_apply]
  dsimp only
  rw [bind_apply, ahead_apply, queryStepAt]
  dsimp only
  by_cases ha : s.skipBlank.startsWith isAnd = true
  · rw [if_pos ha, if_pos (by simp [ha, hn, hb]), bind_apply, bind_apply]
    cases take isAnd unexpectedInMedia s.skipBlank with
    | rejected f left => rfl
    | accepted and left =>
      have hnext := queryBehind_needFeature
        (q := { q with children := q.children ++ [and], needFeature := true }) rfl
      exact congrFun hnext.symm left
  · rw [if_neg ha, if_neg (by simp [ha]), if_neg (by simp [hb]),
      if_neg (by simp [hn, hb, QueryState.atStart_eq]), if_pos (by simp [hn, hb]), bind_apply, bind_apply]
    cases queryEnd s.skipBlank <;> rfl

/-- Without a word that may stand for one, there is no medium. -/
theorem take_isMediaType_rejected (h : ¬ s.startsWith isMediaType = true) :
    take isMediaType unexpectedInMedia s = .rejected (s.fault (unexpectedInMedia s)) s := by
  cases s with
  | nil => rfl
  | cons t rest => rw [take_cons, if_neg (show ¬ isMediaType t.kind = true from h)]

/-- Behind a qualifier. -/
theorem queryBehind_eq_qualifier (hn : q.needFeature = false) (hb : q.isBegun = false)
    (hq : q.qualifier = true) (s : Tokens) :
    queryBehind q s = behindAttempt queryBehind (queryStepAt q s.skipBlank s.skipBlank) := by
  rw [queryBehind_qualifier hn hb hq, queryStepAt, bind_apply, blank_apply, if_neg (by simp [hb])]
  dsimp only
  rw [bind_apply]
  by_cases hm : s.skipBlank.startsWith isMediaType = true
  · rw [if_pos (by simp [hm, hb]), bind_apply]
    cases take isMediaType unexpectedInMedia s.skipBlank with
    | rejected f left => rfl
    | accepted word left =>
      have hnext := queryBehind_isBegun
        (q := { q with children := q.children ++ [word], medium := true }) hn rfl
      dsimp only
      rw [if_neg (by simp [hq])]
      exact congrFun hnext.symm left
  · rw [take_isMediaType_rejected hm, if_neg (by simp [hm]),
      if_neg (by simp [hn, hq, QueryState.atStart_eq]), if_neg (by simp [hb])]
    rfl

/-- At the beginning. -/
theorem queryBehind_eq_start (hn : q.needFeature = false) (hb : q.isBegun = false)
    (hq : q.qualifier = false) (s : Tokens) :
    queryBehind q s = behindAttempt queryBehind (queryStepAt q s.skipBlank s.skipBlank) := by
  rw [queryBehind_start hn hb hq, queryStepAt, bind_apply, mediaQueryHead, bind_apply, blank_apply,
    if_neg (by simp [hb])]
  dsimp only
  rw [bind_apply, ahead_apply]
  dsimp only
  by_cases hs : startsQualified s.skipBlank = true
  · have hword := hs
    generalize Tokens.skipBlank s = r at hs hword ⊢
    cases r with
    | nil => contradiction
    | cons t rest =>
      have hk := (Bool.and_eq_true_iff.1 hword).1
      have hm := isMediaType_of_isQualifier hk
      rw [if_pos hs, if_pos (by simp [hb, Tokens.startsWith, hm])]
      simp only [bind_apply, take_cons, if_pos hk, if_pos hm, blank_apply]
      rw [if_pos (by simp [hs, hq])]
      have hnext := queryBehind_qualifier (q := { q with
        children := q.children ++ [t.leaf], qualifier := true }) hn hb rfl
      refine Eq.trans ?_ (congrFun hnext.symm rest)
      simp only [bind_apply, blank_apply, pure_apply]
      cases take isMediaType unexpectedInMedia (Tokens.skipBlank rest) <;> simp
  · rw [if_neg hs]
    by_cases hm : s.skipBlank.startsWith isMediaType = true
    · rw [if_pos hm, if_pos (by simp [hm, hb]), bind_apply, bind_apply]
      cases take isMediaType unexpectedInMedia s.skipBlank with
      | rejected f left => rfl
      | accepted word left =>
        have hnext := queryBehind_isBegun
          (q := { q with children := q.children ++ [word], medium := true }) hn rfl
        dsimp only
        rw [if_neg (by simp [hs])]
        exact congrFun hnext.symm left
    · rw [if_neg hm, if_neg (by simp [hm])]
      by_cases hp : s.skipBlank.startsWith (· == .opening .paren) = true
      · rw [if_pos (by simp [hp, hb, hq, QueryState.atStart_eq]), bind_apply, bind_apply]
        cases Grammar.mediaFeature s.skipBlank with
        | rejected f left => rfl
        | accepted feature left =>
          have hnext := queryBehind_isBegun (q := { q with
            children := q.children ++ [feature], feature := true, needFeature := false }) rfl (by
              simp [QueryState.isBegun])
          exact congrFun hnext.symm left
      · rw [if_neg (by simp [hp]), if_neg (by simp [hb]), bind_apply, mediaFeature_rejected hp]
        rfl

theorem queryBehind_eq (hq : q.IsRegular) (s : Tokens) :
    queryBehind q s = behindAttempt queryBehind (queryStep q s) := by
  show _ = behindAttempt queryBehind (queryStepAt q s.skipBlank s.skipBlank)
  cases hn : q.needFeature with
  | true => exact queryBehind_eq_needFeature hn (hq hn) s
  | false =>
    cases hb : q.isBegun with
    | true => exact queryBehind_eq_isBegun hn hb s
    | false =>
      cases hw : q.qualifier with
      | true => exact queryBehind_eq_qualifier hn hb hw s
      | false => exact queryBehind_eq_start hn hb hw s

theorem follows_queryBehind (hq : q.IsRegular) :
    Follows i (attempt queryRound q) s ps (queryBehind q s) := by
  apply Follows.attempt_of (p := queryBehind) (I := fun q _ => q.IsRegular)
    (fun q s ps _ => (queryRounds i).follows q s ps) _ (fun q s hq => queryBehind_eq hq s) hq
  intro q s next rest hq h
  exact ⟨queryStep_isRegular hq h, (queryRounds i).shorter q s next rest h⟩

end

/-- A query, and the comma or the brace behind it, which is left. -/
def queryAhead : Production Tree := do
  let query ← Grammar.mediaQuery
  queryEnd
  return query

theorem follows_mediaQuery (hb : Tokens.skipBlank s = s) :
    Follows i mediaQuery s ps (queryAhead s) := by
  apply Follows.of_leaves
  intro hs
  rw [mediaQuery]
  apply Follows.get
  have hq : Follows i (attempt queryRound {}) s ps (queryBehind {} s) := follows_queryBehind nofun
  apply hq.map_eq (Tree.node .mediaQuery (i.before s ps).pos)
  rw [queryBehind_start rfl rfl rfl]
  cases s with
  | nil => rfl
  | cons t rest =>
    simp only [queryAhead, Grammar.mediaQuery, featuresBehind, bind_apply, ahead_apply, hb, pos_cons hs]
    cases mediaQueryHead (t :: rest) with
    | rejected f left => rfl
    | accepted head left =>
      dsimp only
      cases furtherFeatures left with
      | rejected f left => rfl
      | accepted more left =>
        simp only [pure_apply]
        cases queryEnd left <;> rfl

/-! ## Lists of queries -/

/-- The brace of the block behind the queries, which is left. -/
def mediaBlockAhead : Production Unit := facing (· == .opening .brace) unexpectedInMedia

/-- Further queries behind the trees in front of them, up to the brace of the block. -/
def queriesAfter (children : List Tree) : Production (List Tree) := do
  let more ← furtherQueries
  mediaBlockAhead
  return children ++ more

/-- As `queriesAfter`, with a query to come. -/
def queriesBehind (children : List Tree) : Production (List Tree) := do
  let first ← Grammar.mediaQuery
  queriesAfter (children ++ [first])

theorem queryAhead_consumes : Consumes queryAhead :=
  .bind mediaQuery_consumes fun _ => .bind (facing_advances _ _) fun _ => .pure _

/-- A round of the queries: one of them, and a comma or the end of the list. -/
def queryListStep (children : List Tree) : Production (Step (List Tree) (List Tree)) := do
  blank
  let query ← queryAhead
  match ← take? (· == .comma) with
  | some comma => return .again (children ++ [query, comma])
  | none => return .done (children ++ [query])

/-- Behind a query that is read, a comma comes next or a brace. -/
theorem startsWith_of_queryAhead {query : Tree} (h : queryAhead s = .accepted query rest) :
    rest.startsWith (fun k => k == .comma || k == .opening .brace) = true := by
  obtain ⟨_, between, -, h⟩ := bind_eq_accepted h
  obtain ⟨_, _, he, h⟩ := bind_eq_accepted h
  cases h
  exact (facing_eq_accepted he).2

theorem startsWith_brace {read : Option Tree}
    (h : s.startsWith (fun k => k == .comma || k == .opening .brace) = true)
    (ht : take? (· == .comma) s = .accepted read rest) (hr : read = none) :
    rest.startsWith (· == .opening .brace) = true := by
  obtain ⟨t, left, rfl, hk⟩ := Tokens.exists_of_startsWith h
  rw [take?_cons] at ht
  split at ht
  · cases ht
    contradiction
  · rename_i hc
    cases ht
    exact (Bool.or_eq_true_iff.1 hk).resolve_left hc

theorem queryListRounds (i : Input) : Attempts i queryListRound queryListStep where
  follows children s ps := by
    rw [queryListRound]
    apply Follows.bind .blanks
    intro _ r hr
    cases hr
    apply Follows.bind (follows_mediaQuery (skipBlank_skipBlank s))
    intro query r hq
    apply Follows.bind (.optional rfl)
    intro comma r' hc
    cases comma with
    | some comma => exact .pure _
    | none =>
      have hbrace := startsWith_brace (startsWith_of_queryAhead hq) hc rfl
      apply Follows.of_leaves
      intro hs
      refine Gives.behind (Follows.allow ?_) (.pure _)
      rw [startsWith_before (p := (· == .opening .brace)) rfl hs, hbrace]
      rfl
  shorter children s next rest h := by
    obtain ⟨_, r, hr, h⟩ := bind_eq_accepted h
    cases hr
    obtain ⟨query, r, hq, h⟩ := bind_eq_accepted h
    have hl := queryAhead_consumes _ query r hq
    obtain ⟨comma, r', hc, h⟩ := bind_eq_accepted h
    have hl' := (Advances.take? (· == .comma)).length_le r
    rw [hc] at hl'
    cases comma with
    | none => cases h
    | some comma =>
      cases h
      exact Nat.lt_of_le_of_lt hl' (Nat.lt_of_lt_of_le hl (skipBlank_length_le s))

theorem queriesAfter_eq (children : List Tree) (s : Tokens) :
    queriesAfter children s = (do
      match ← take? (· == .comma) with
      | some comma => queriesBehind (children ++ [comma])
      | none =>
        mediaBlockAhead
        return children : Production (List Tree)) s := by
  rw [queriesAfter, bind_apply, bind_apply]
  cases s with
  | nil =>
    rw [furtherQueries]
    simp only [bind_apply, take?_nil, List.append_nil]
  | cons comma rest =>
    rw [furtherQueries_cons, take?_cons]
    by_cases hc : comma.kind = .comma
    · rw [if_pos hc, if_pos (beq_iff_eq.2 hc)]
      simp only [bind_apply, queriesBehind, queriesAfter]
      cases Grammar.mediaQuery rest with
      | rejected f left => rfl
      | accepted next left =>
        dsimp only
        cases furtherQueries left <;> simp [Outcome.map]
    · rw [if_neg hc, if_neg (mt beq_iff_eq.1 hc)]
      simp only [bind_apply, List.append_nil]

/-- Blanks in front of a query are skipped. -/
theorem mediaQuery_skipBlank (s : Tokens) : Grammar.mediaQuery s.skipBlank = Grammar.mediaQuery s := by
  rw [Grammar.mediaQuery, bind_apply, bind_apply, ahead_apply, ahead_apply]
  dsimp only
  rw [bind_apply, bind_apply, skipBlank_skipBlank, mediaQueryHead, bind_apply, bind_apply, blank_apply,
    blank_apply, skipBlank_skipBlank]

theorem follows_queriesBehind (children : List Tree) :
    Follows i (attempt queryListRound children) s ps (queriesBehind children s) := by
  apply (queryListRounds i).attempt (p := queriesBehind)
  intro children s
  rw [queriesBehind, queryListStep, bind_apply, bind_apply, blank_apply]
  dsimp only
  rw [queryAhead, bind_assoc, bind_apply, mediaQuery_skipBlank]
  cases Grammar.mediaQuery s with
  | rejected f rest => rfl
  | accepted query rest =>
    dsimp only
    rw [queriesAfter_eq, bind_apply, bind_assoc, bind_apply]
    cases rest with
    | nil => rfl
    | cons t left =>
      rw [take?_cons, queryEnd, facing_cons]
      by_cases hc : (t.kind == .comma) = true
      · rw [if_pos hc, if_pos (Bool.or_eq_true_iff.2 (Or.inl hc))]
        simp [take?_cons, hc]
      · rw [if_neg hc]
        by_cases hb : (t.kind == .opening .brace) = true
        · rw [if_pos (Bool.or_eq_true_iff.2 (Or.inr hb))]
          simp [take?_cons, hc, mediaBlockAhead, facing_cons, hb]
        · rw [if_neg (mt Bool.or_eq_true_iff.1 (not_or.2 ⟨hc, hb⟩))]
          simp [mediaBlockAhead, facing_cons, hb]

/-- The queries in front of a block, up to its brace. -/
def queriesAhead : Production Tree := do
  let s ← ahead
  let queries ← mediaQueries
  mediaBlockAhead
  return .node .mediaQueryList (s.head?.elim 0 (·.index)) queries

theorem follows_mediaQueryList : Follows i mediaQueryList s ps (queriesAhead s) := by
  apply Follows.of_leaves
  intro hs
  rw [mediaQueryList]
  apply Follows.get
  rw [startsWith_before (p := (· == .opening .brace)) rfl hs]
  by_cases hb : s.startsWith (· == .opening .brace) = true
  · obtain ⟨t, rest, rfl, hk⟩ := Tokens.exists_of_startsWith hb
    have he : queriesAhead (t :: rest) = .accepted (.node .mediaQueryList t.index []) (t :: rest) := by
      simp only [queriesAhead, mediaQueries, bind_apply, ahead_apply, if_pos hb, pure_apply, mediaBlockAhead,
        facing_cons, if_pos hk]
      rfl
    rw [if_pos hb, he, pos_cons hs]
    exact .pure _
  · rw [if_neg hb]
    apply (follows_queriesBehind []).map_eq (Tree.node .mediaQueryList (i.before s ps).pos)
    simp only [queriesAhead, mediaQueries, queriesBehind, queriesAfter, bind_apply, ahead_apply, if_neg hb]
    cases s with
    | nil =>
      rw [mediaQuery_blank rfl]
      rfl
    | cons t rest =>
      rw [pos_cons hs]
      cases Grammar.mediaQuery (t :: rest) with
      | rejected f left => rfl
      | accepted first left =>
        dsimp only
        cases furtherQueries left with
        | rejected f left => rfl
        | accepted more left =>
          simp only [pure_apply]
          cases mediaBlockAhead left <;> rfl

/-- Behind the queries of a rule comes a brace. -/
theorem brace_of_queriesAhead {queries : Tree} (h : queriesAhead s = .accepted queries rest) :
    ∃ t left, rest = t :: left ∧ (t.kind == .opening .brace) = true := by
  obtain ⟨_, _, -, h⟩ := bind_eq_accepted h
  obtain ⟨_, _, -, h⟩ := bind_eq_accepted h
  obtain ⟨_, _, hb, h⟩ := bind_eq_accepted h
  cases h
  exact Tokens.exists_of_startsWith (facing_eq_accepted hb).2

/-- What a media rule reads in front of its block: the queries, and then the brace. -/
theorem mediaPrelude_eq : mediaPrelude = (do
    let queries ← queriesAhead
    let brace ← take (· == .opening .brace) unexpectedInMedia
    return (queries, brace)) := by
  simp only [queriesAhead, mediaBlockAhead, bind_assoc, pure_bind, facing_take]
  rfl

end Stylesheet.Cursor
