import Mathlib.Tactic.SplitIfs
import Stylesheet.Proofs.Grammar.Stable

/-!
# More tokens behind selectors, queries and declarations

The other productions one by one, in the order of the grammar, and what is skipped where one of them
is given up.
-/

namespace Stylesheet.Grammar

open Production Tokens

/-! ## Selectors -/

theorem Stable.idSelector : Stable idSelector := fun _ =>
  .bind (.take _ fun _ _ _ => rfl) fun _ _ _ => .pure _

theorem Stable.classSelector : Stable classSelector := fun _ =>
  .bind (.take _ fun _ _ _ => rfl) fun _ _ _ => .bind (.take _ fun _ _ _ => rfl) fun _ _ _ =>
    .pure _

theorem Stable.attributeMatcher : Stable attributeMatcher := by
  intro s
  apply StableAt.bind (.take? _)
  intro comparison rest _
  cases comparison with
  | none => exact .pure _
  | some comparison =>
    exact .bind .blank fun _ _ _ => .bind (.take _ fun _ _ _ => rfl) fun _ _ _ =>
      .bind .blank fun _ _ _ => .pure _

theorem Stable.attributeSelector : Stable attributeSelector := fun _ =>
  .bind (.take _ fun _ _ _ => rfl) fun _ _ _ => .bind .blank fun _ _ _ =>
    .bind (.take _ fun _ _ _ => rfl) fun _ _ _ => .bind .blank fun _ _ _ =>
    .bind (Stable.attributeMatcher _) fun _ _ _ => .bind (.take _ fun _ _ _ => rfl) fun _ _ _ =>
    .pure _

theorem Stable.pseudoArgument (depth : Nat) : Stable (pseudoArgument depth) := by
  intro s
  induction s generalizing depth with
  | nil => exact .ofNil rfl
  | cons t rest ih =>
    by_cases ho : t.kind.opens?.isSome = true
    · exact ((ih (depth + 1)).map (t.leaf :: ·)).ofTail fun r => by
        rw [Grammar.pseudoArgument, if_pos ho]
    by_cases hc : t.kind = .closing .paren
    · by_cases hd : depth = 0
      · exact (StableAt.pure [t.leaf]).ofTail fun r => by
          rw [Grammar.pseudoArgument, if_neg ho, if_pos hc, if_pos hd]
          rfl
      · exact ((ih (depth - 1)).map (t.leaf :: ·)).ofTail fun r => by
          rw [Grammar.pseudoArgument, if_neg ho, if_pos hc, if_neg hd]
    · exact ((ih depth).map (t.leaf :: ·)).ofTail fun r => by
        rw [Grammar.pseudoArgument, if_neg ho, if_neg hc]

theorem Stable.pseudoName : Stable pseudoName := by
  intro s
  cases s with
  | nil => exact .ofNil rfl
  | cons t rest =>
    by_cases hi : ∃ name, t.kind = .ident name
    · obtain ⟨name, hk⟩ := hi
      exact (StableAt.pure [t.leaf]).ofTail fun r => by
        simp only [Grammar.pseudoName, hk]
        rfl
    by_cases hf : ∃ name, t.kind = .function name
    · obtain ⟨name, hk⟩ := hf
      exact ((Stable.pseudoArgument 0 rest).map (t.leaf :: ·)).ofTail fun r => by
        simp only [Grammar.pseudoName, hk]
    · have hp : StableAt (reject fun _ => .selector .noPseudoName : Production (List Tree))
          (t :: rest) := .reject fun _ _ _ => rfl
      refine hp.ofHead fun r => ?_
      simp only [Grammar.pseudoName]
      split
      · rename_i name hk
        exact absurd ⟨name, hk⟩ hi
      · rename_i name hk
        exact absurd ⟨name, hk⟩ hf
      · rfl

theorem Stable.pseudoSelector : Stable pseudoSelector := fun _ =>
  .bind (.take _ fun _ _ _ => rfl) fun _ _ _ => .bind (.take? _) fun _ _ _ =>
    .bind (Stable.pseudoName _) fun _ _ _ => .pure _

theorem condition_cons (t : Placed) (rest : Tokens) : condition (t :: rest) =
    (if t.kind = .dot then classSelector else if t.kind = .opening .square then attributeSelector
      else if t.kind = .colon then pseudoSelector else idSelector) (t :: rest) := by
  simp only [condition, Tokens.kind?, List.head?_cons, Option.map_some]
  cases t.kind with
  | opening b => cases b <;> rfl
  | _ => rfl

theorem Stable.condition : Stable condition := by
  intro s
  cases s with
  | nil => exact .ofNil rfl
  | cons t rest =>
    refine StableAt.ofHead ?_ (condition_cons t)
    exact .ite (Stable.classSelector _) (.ite (Stable.attributeSelector _)
      (.ite (Stable.pseudoSelector _) (Stable.idSelector _)))

theorem startsWith_append {s : Tokens} (h : s ≠ []) (p : TokenKind → Bool) (more : Tokens) :
    startsWith (s ++ more) p = startsWith s p := by
  cases s with
  | nil => contradiction
  | cons t rest => rfl

/-- A loop stops in front of a token that begins no further round. -/
theorem StableAt.stop {α : Type} {q : Production α} {s : Tokens} (a : α)
    (e : q s = .accepted a s) (e' : s ≠ [] → ∀ more, q (s ++ more) = .accepted a (s ++ more)) :
    StableAt q s :=
  (StableAt.pure a).step (List.suffix_refl s) e fun h => e' h.ne_nil

/-- A production, and then another whose result is put together with that of the first. -/
def andThen {α β γ : Type} (p : Production α) (q : Production β) (f : α → β → γ) : Production γ :=
  fun s => match p s with
    | .accepted a rest => (q rest).map (f a)
    | .rejected e rest => .rejected e rest

theorem StableAt.andThen {α β γ : Type} {p : Production α} {q : Production β} {f : α → β → γ}
    {s : Tokens} (hp : StableAt p s) (hq : ∀ a rest, p s = .accepted a rest → StableAt q rest) :
    StableAt (andThen p q f) s :=
  .bind hp fun a rest ha => (hq a rest ha).map (f a)

theorem Stable.conditions : Stable conditions := by
  intro s
  induction h : s.length using Nat.strongRecOn generalizing s with
  | _ n ih =>
    by_cases hs : s.startsWith startsCondition = true
    · have hne : s ≠ [] := fun e => by rw [e] at hs; contradiction
      have e (r : Tokens) (hr : r.startsWith startsCondition = true) : Grammar.conditions r =
          andThen Grammar.condition Grammar.conditions (fun c cs => c :: cs) r := by
        rw [conditions_eq, if_pos hr, andThen]
        cases Grammar.condition r <;> rfl
      refine (StableAt.andThen (Stable.condition s) fun c rest hc =>
        ih _ (h ▸ condition_consumes s c rest hc) rest rfl).step (List.suffix_refl s) (e s hs)
          fun _ more => e _ (by rwa [startsWith_append hne])
    · refine .stop [] (by rw [conditions_eq, if_neg hs]) fun hne more => ?_
      rw [conditions_eq, if_neg (by rwa [startsWith_append hne])]

/-- A name or an asterisk alone could be a prefix if a bar followed. -/
theorem stableAt_namespacePrefix? {s : Tokens}
    (h : ∀ t, s = [t] → isNameOrAny t.kind = false) : StableAt namespacePrefix? s := by
  match s, h with
  | [], _ => exact .ofNil rfl
  | [t], h =>
    have ht := h t rfl
    by_cases hb : t.kind = .bar
    · refine (StableAt.pure (some (single .namespacePrefix t.leaf))).ofTail fun r => ?_
      cases r <;> simp [Grammar.namespacePrefix?, hb]
    · refine (StableAt.pure none).ofHead fun r => ?_
      cases r <;> simp [Grammar.namespacePrefix?, hb, ht]
  | t :: u :: rest, _ =>
    refine ⟨namespacePrefix?_advances _, fun _ more => ?_, fun f left e => ?_⟩
    · simp only [List.cons_append, Grammar.namespacePrefix?]
      split
      · rfl
      · split <;> rfl
    · simp only [Grammar.namespacePrefix?] at e
      split at e
      · contradiction
      · split at e <;> contradiction

theorem Stable.elementName? (hasPrefix : Bool) : Stable (elementName? hasPrefix) := by
  intro s
  apply StableAt.bind (.take? _)
  intro name rest _
  cases name with
  | some name => exact .pure _
  | none => exact .ite (.reject fun _ _ _ => rfl) (.pure _)

/-- A name alone is a compound that leaves nothing. -/
theorem compound_single {t : Placed} (h : isNameOrAny t.kind = true) : (compound [t]).rest = [] := by
  have hb : (t.kind == .bar) = false := by
    cases hk : t.kind <;> rw [hk] at h <;> first | rfl | contradiction
  have hc : Grammar.conditions [] = .accepted [] [] := by rw [conditions_eq]; rfl
  simp [compound, Grammar.namespacePrefix?, Grammar.elementName?, take?_cons, hb, h, hc,
    Outcome.rest]

theorem Stable.compound : Stable compound := by
  intro s
  by_cases h : ∃ t, s = [t] ∧ isNameOrAny t.kind = true
  · obtain ⟨t, rfl, ht⟩ := h
    exact .ofNil (compound_single ht)
  · have hs : ∀ t, s = [t] → isNameOrAny t.kind = false :=
      fun t e => Bool.eq_false_iff.2 fun ht => h ⟨t, e, ht⟩
    apply StableAt.bind (stableAt_namespacePrefix? hs)
    intro nsPrefix r _
    apply StableAt.bind (Stable.elementName? _ r)
    intro element r' _
    apply StableAt.bind (Stable.conditions r')
    intro conditions r'' _
    split
    · exact .reject fun _ _ _ => rfl
    · exact .pure _

theorem combinator?_cons {b t : Placed} {r rest : Tokens} (h : skipBlank (b :: r) = t :: rest) :
    combinator? (b :: r) =
      if isCombinator t.kind then .accepted (some (single .combinator t.leaf)) (skipBlank rest)
      else if startsCompound t.kind then
        if Tokens.isBlank b then .accepted (some (single .combinator b.leaf)) (t :: rest)
        else .rejected (fault (b :: r) (.selector (.unexpected (found (b :: r))))) (b :: r)
      else .accepted none (t :: rest) := by
  simp only [combinator?, h]

theorem Stable.combinator? : Stable combinator? := by
  intro s
  cases h : skipBlank s with
  | nil => exact .ofNil (by rw [Grammar.combinator?, h]; rfl)
  | cons t rest =>
    have hs := suffix_of_skipBlank h
    have hsolid := solid_of_skipBlank h
    obtain ⟨b, r, rfl⟩ := List.exists_cons_of_ne_nil hsolid.ne_nil
    have happend (more : Tokens) : skipBlank (b :: (r ++ more)) = t :: (rest ++ more) := by
      rw [← List.cons_append, hsolid.skipBlank_append, h, List.cons_append]
    by_cases hc : isCombinator t.kind = true
    · have hp : StableAt (Production.blank >>= fun _ => Pure.pure
          (some (single .combinator t.leaf)) : Production (Option Tree)) rest :=
        .bind .blank fun _ _ _ => .pure _
      refine hp.step ((List.suffix_cons t rest).trans hs) ?_ fun _ more => ?_
      · rw [combinator?_cons h, if_pos hc]
        rfl
      · rw [List.cons_append, combinator?_cons (happend more), if_pos hc]
        rfl
    by_cases hk : startsCompound t.kind = true
    · by_cases hb : Tokens.isBlank b = true
      · have hp : StableAt (Pure.pure (some (single .combinator b.leaf)) :
            Production (Option Tree)) (t :: rest) := .pure _
        refine hp.step hs ?_ fun _ more => ?_
        · rw [combinator?_cons h, if_neg hc, if_pos hk, if_pos hb]
          rfl
        · rw [List.cons_append, combinator?_cons (happend more), if_neg hc, if_pos hk, if_pos hb]
          rfl
      · have hp : StableAt (reject fun s => .selector (.unexpected s.found) :
            Production (Option Tree)) (b :: r) := .reject fun _ _ _ => rfl
        refine hp.step (List.suffix_refl _) ?_ fun _ more => ?_
        · rw [combinator?_cons h, if_neg hc, if_pos hk, if_neg hb]
          rfl
        · rw [List.cons_append, combinator?_cons (happend more), if_neg hc, if_pos hk, if_neg hb]
          rfl
    · have hp : StableAt (Pure.pure none : Production (Option Tree)) (t :: rest) := .pure _
      refine hp.step hs ?_ fun _ more => ?_
      · rw [combinator?_cons h, if_neg hc, if_neg hk]
        rfl
      · rw [List.cons_append, combinator?_cons (happend more), if_neg hc, if_neg hk]
        rfl

theorem Stable.selectorTail : Stable selectorTail := by
  intro s
  induction h : s.length using Nat.strongRecOn generalizing s with
  | _ n ih =>
    have hp : StableAt (Grammar.combinator? >>= fun c => c.elim
        (Pure.pure [] : Production (List Tree)) fun combinator =>
          andThen Grammar.compound Grammar.selectorTail
            fun part more => combinator :: part :: more) s := by
      apply StableAt.bind (Stable.combinator? s)
      intro c rest hc
      cases c with
      | none => exact .pure _
      | some c =>
        refine .andThen (Stable.compound rest) fun part left hpart => ih _ ?_ left rfl
        rw [← h]
        exact Nat.lt_of_lt_of_le (compound_consumes rest part left hpart)
          (suffix_of_accepted combinator?_advances hc).length_le
    apply hp.congr
    intro r
    rw [selectorTail_eq, bind_apply]
    cases Grammar.combinator? r with
    | rejected e rest => rfl
    | accepted c rest =>
      cases c with
      | none => rfl
      | some c =>
        simp only [Option.elim_some, andThen]
        cases Grammar.compound rest <;> rfl

theorem Stable.selector : Stable selector := fun s =>
  .bind (Stable.compound s) fun _ r _ => .bind (Stable.selectorTail r) fun _ _ _ => .pure _

theorem Stable.selectorListTail : Stable selectorListTail := by
  intro s
  induction h : s.length using Nat.strongRecOn generalizing s with
  | _ n ih =>
    cases s with
    | nil => exact .ofNil (by rw [Grammar.selectorListTail]; rfl)
    | cons comma rest =>
      by_cases hk : comma.kind = .comma
      · have hp : StableAt (Production.blank >>= fun _ =>
            andThen Grammar.selector Grammar.selectorListTail
              fun next more => comma.leaf :: next :: more) rest := by
          apply StableAt.bind .blank
          intro _ r hr
          refine .andThen (Stable.selector r) fun next left hnext => ih _ ?_ left rfl
          have h₁ := selector_consumes r next left hnext
          have h₂ := (suffix_of_accepted Advances.blank hr).length_le
          rw [← h, List.length_cons]
          omega
        refine hp.ofTail fun r => ?_
        rw [selectorListTail_cons, if_pos hk, bind_apply, blank_apply]
        simp only [andThen]
        cases Grammar.selector (skipBlank r) <;> rfl
      · exact .stop [] (by rw [selectorListTail_cons, if_neg hk]) fun _ more => by
          rw [List.cons_append, selectorListTail_cons, if_neg hk]

theorem Stable.rulePrelude : Stable rulePrelude := fun s =>
  .bind (.bind (Stable.selector s) fun _ r _ =>
    .bind (Stable.selectorListTail r) fun _ _ _ => .pure _)
    fun _ _ _ => .bind (.take _ fun _ _ _ => rfl) fun _ _ _ => .pure _

/-! ## Media queries -/

theorem Stable.featureValue : Stable featureValue := by
  intro s
  apply StableAt.bind (.take? _)
  intro colon rest _
  cases colon with
  | none => exact .pure _
  | some colon =>
    exact .bind .blank fun _ _ _ => .bind (Stable.value false _) fun _ _ _ =>
      .bind .blank fun _ _ _ => .pure _

theorem Stable.mediaFeature : Stable mediaFeature := fun _ =>
  .bind (.take _ fun _ _ _ => rfl) fun _ _ _ => .bind .blank fun _ _ _ =>
    .bind (.take _ fun _ _ _ => rfl) fun _ _ _ => .bind .blank fun _ _ _ =>
    .bind (Stable.featureValue _) fun _ _ _ => .bind (.take _ fun _ _ _ => rfl) fun _ _ _ =>
    .pure _

theorem headOnly_unexpectedInMedia : HeadOnly unexpectedInMedia := fun _ _ _ => rfl

theorem Stable.furtherFeature : Stable furtherFeature := fun _ =>
  .bind (.take _ headOnly_unexpectedInMedia) fun _ _ _ => .bind .blank fun _ _ _ =>
    .bind (Stable.mediaFeature _) fun _ _ _ => .pure _

/-- What begins a query, by the tokens ahead. -/
def queryStart (s : Tokens) : Production (List Tree) :=
  if startsQualified s then do
    let qualifier ← take isQualifier unexpectedInMedia
    blank
    let mediaType ← take isMediaType unexpectedInMedia
    return [qualifier, mediaType]
  else if s.startsWith isMediaType then do
    let mediaType ← take isMediaType unexpectedInMedia
    return [mediaType]
  else do
    let feature ← mediaFeature
    return [feature]

/-- A qualifier is one only if a word follows it; if the tokens end there, nothing is left. -/
theorem stableAt_queryStart (s : Tokens) : StableAt (ahead >>= queryStart) s := by
  have hstart : StableAt (queryStart s) s := by
    refine .ite ?_ (.ite ?_ ?_)
    · exact .bind (.take _ headOnly_unexpectedInMedia) fun _ _ _ => .bind .blank fun _ _ _ =>
        .bind (.take _ headOnly_unexpectedInMedia) fun _ _ _ => .pure _
    · exact .bind (.take _ headOnly_unexpectedInMedia) fun _ _ _ => .pure _
    · exact .bind (Stable.mediaFeature s) fun _ _ _ => .pure _
  cases s with
  | nil => exact .ofNil rfl
  | cons t rest =>
    by_cases hq : isQualifier t.kind = true ∧ ¬ Solid rest
    · have hr : (skipBlank rest).startsWith TokenKind.isIdent = false := by
        rw [show skipBlank rest = [] from Decidable.not_not.1 hq.2]
        rfl
      have hs : startsQualified (t :: rest) = false := by rw [startsQualified, hr, Bool.and_false]
      have ht : (startsWith (t :: rest) isMediaType) = true := isMediaType_of_isQualifier hq.1
      have e : queryStart (t :: rest) (t :: rest) = .accepted [t.leaf] rest := by
        simp only [queryStart, hs, ht, Bool.false_eq_true, ↓reduceIte, bind_apply, take_cons,
          isMediaType_of_isQualifier hq.1, pure_apply]
      have e' : (ahead >>= queryStart) (t :: rest) = .accepted [t.leaf] rest := e
      exact .ofBlank (by rw [e']; exact List.suffix_cons t rest) (by rw [e']; exact hq.2)
    · refine hstart.aheadAt fun _ more => ?_
      have hs : startsQualified (t :: rest ++ more) = startsQualified (t :: rest) := by
        rw [List.cons_append, startsQualified, startsQualified]
        by_cases hk : isQualifier t.kind = true
        · have hr : Solid rest := Classical.not_not.1 fun hr => hq ⟨hk, hr⟩
          rw [hr.skipBlank_append, startsWith_append hr]
        · rw [Bool.not_eq_true] at hk
          rw [hk]
          rfl
      rw [queryStart, queryStart, hs, startsWith_append (List.cons_ne_nil t rest)]

theorem Stable.mediaQueryHead : Stable mediaQueryHead := fun _ =>
  .bind .blank fun _ r _ => stableAt_queryStart r

theorem Stable.furtherFeatures : Stable furtherFeatures := by
  intro s
  induction h : s.length using Nat.strongRecOn generalizing s with
  | _ n ih =>
    have hs := skipBlank_suffix s
    by_cases hsolid : s.Solid
    · have happend (more : Tokens) : (skipBlank (s ++ more)).startsWith isAnd =
          (skipBlank s).startsWith isAnd := by
        rw [hsolid.skipBlank_append, startsWith_append hsolid]
      by_cases hk : (skipBlank s).startsWith isAnd = true
      · have hp : StableAt (andThen Grammar.furtherFeature Grammar.furtherFeatures
            fun feature more => feature ++ more) (skipBlank s) := by
          refine .andThen (Stable.furtherFeature _) fun feature left hf => ih _ ?_ left rfl
          rw [← h]
          exact Nat.lt_of_lt_of_le (furtherFeature_consumes _ feature left hf) hs.length_le
        refine hp.step hs ?_ fun _ more => ?_
        · rw [furtherFeatures_eq, if_pos hk, andThen]
          cases Grammar.furtherFeature (skipBlank s) <;> rfl
        · rw [furtherFeatures_eq, happend, if_pos hk, hsolid.skipBlank_append, andThen]
          cases Grammar.furtherFeature (skipBlank s ++ more) <;> rfl
      · have hp : StableAt (Pure.pure [] : Production (List Tree)) (skipBlank s) := .pure _
        refine hp.step hs ?_ fun _ more => ?_
        · rw [furtherFeatures_eq, if_neg hk]
          rfl
        · rw [furtherFeatures_eq, happend, if_neg hk, hsolid.skipBlank_append]
          rfl
    · have hn : skipBlank s = [] := Decidable.not_not.1 hsolid
      exact .ofNil (by rw [furtherFeatures_eq, hn]; rfl)

theorem Stable.mediaQuery : Stable mediaQuery := by
  intro s
  by_cases hs : s.Solid
  · refine .aheadAt (.bind (Stable.mediaQueryHead _) fun _ _ _ =>
      .bind (Stable.furtherFeatures _) fun _ _ _ => .pure _) fun _ more => ?_
    obtain ⟨t, rest, e⟩ := List.exists_cons_of_ne_nil hs
    rw [hs.skipBlank_append, e]
    rfl
  · have hn : skipBlank s = [] := Decidable.not_not.1 hs
    exact .ofNil (by rw [mediaQuery_blank hn]; rfl)

theorem Stable.furtherQueries : Stable furtherQueries := by
  intro s
  induction h : s.length using Nat.strongRecOn generalizing s with
  | _ n ih =>
    cases s with
    | nil => exact .ofNil (by rw [Grammar.furtherQueries]; rfl)
    | cons comma rest =>
      by_cases hk : comma.kind = .comma
      · have hp : StableAt (andThen Grammar.mediaQuery Grammar.furtherQueries
            fun next more => comma.leaf :: next :: more) rest := by
          refine .andThen (Stable.mediaQuery rest) fun next left hnext => ih _ ?_ left rfl
          have h₁ := mediaQuery_consumes rest next left hnext
          rw [← h, List.length_cons]
          omega
        refine hp.ofTail fun r => ?_
        rw [furtherQueries_cons, if_pos hk]
        simp only [andThen]
        cases Grammar.mediaQuery r <;> rfl
      · exact .stop [] (by rw [furtherQueries_cons, if_neg hk]) fun _ more => by
          rw [List.cons_append, furtherQueries_cons, if_neg hk]

theorem Stable.mediaQueries : Stable mediaQueries := fun _ =>
  .ahead (.ite (.pure _) (.bind (Stable.mediaQuery _) fun _ _ _ =>
    .bind (Stable.furtherQueries _) fun _ _ _ => .pure _)) fun _ _ _ => rfl

theorem Stable.mediaPrelude : Stable mediaPrelude := fun _ =>
  .ahead (.bind (Stable.mediaQueries _) fun _ _ _ =>
    .bind (.take _ headOnly_unexpectedInMedia) fun _ _ _ => .pure _) fun _ _ _ => rfl

/-! ## Declarations -/

theorem stableAt_valueAhead (name : Option Placed) (hn : name.isSome = true) (s : Tokens) :
    StableAt (valueAhead name) s := by
  cases s with
  | nil => exact .ofNil rfl
  | cons t rest =>
    refine ⟨valueAhead_advances name _, fun _ more => ?_, fun f left e _ => ?_⟩
    · simp only [valueAhead, List.cons_append, List.isEmpty_cons, startsWith]
      by_cases hk : endsEmpty t.kind = true <;> simp [hk, Outcome.extend]
    · simp only [valueAhead] at e
      split at e
      · cases e
        simpa using hn
      · contradiction

theorem Stable.declarationEnd : Stable declarationEnd := by
  intro s
  apply StableAt.bind (.take? _)
  intro semicolon rest _
  cases semicolon with
  | some semicolon => exact .pure _
  | none => exact .ahead (.ite (.pure _) (.reject fun _ _ _ => rfl)) fun _ _ _ => rfl

theorem Stable.declaration : Stable declaration := by
  intro s
  cases s with
  | nil => exact .ofNil rfl
  | cons t rest =>
    refine .ahead ?_ fun _ _ _ => rfl
    exact .bind (.take _ fun _ _ _ => rfl) fun _ _ _ => .bind .blank fun _ _ _ =>
      .bind (.take _ fun _ _ _ => rfl) fun _ _ _ => .bind .blank fun _ _ _ =>
      .bind (stableAt_valueAhead _ rfl _) fun _ _ _ => .bind (Stable.value false _) fun _ _ _ =>
      .bind .blank fun _ _ _ => .bind (.take? _) fun _ _ _ => .bind .blank fun _ _ _ =>
      .bind (Stable.declarationEnd _) fun _ _ _ => .pure _

/-! ## What stands behind the keyword of an at-rule -/

theorem Stable.namespaceContent : Stable namespaceContent := fun _ =>
  .bind .blank fun _ _ _ => .bind (.take? _) fun _ _ _ => .bind .blank fun _ _ _ =>
    .ahead (.bind (.take _ fun _ _ _ => rfl) fun _ _ _ => .bind .blank fun _ _ _ =>
      .bind (.take? _) fun _ _ _ => .pure _) fun _ _ _ => rfl

theorem Stable.fontFaceBrace : Stable fontFaceBrace := fun _ =>
  .bind .blank fun _ _ _ => .take _ fun _ _ _ => rfl

/-! ## What is skipped -/

/-- The same skipped tokens, with more tokens behind. -/
def Skipped.extend (more : Tokens) (k : Skipped) : Skipped := ⟨k.leaves, k.rest ++ more⟩

theorem Skipped.extend_cons (more : Tokens) (t : Placed) (k : Skipped) :
    (k.extend more).cons t = (k.cons t).extend more := rfl

theorem skipDeclaration_append (s : Tokens) (depth : Nat)
    (h : Solid (skipDeclaration depth s).rest) (more : Tokens) :
    skipDeclaration depth (s ++ more) = (skipDeclaration depth s).extend more := by
  induction s generalizing depth with
  | nil => exact absurd h not_solid_nil
  | cons t rest ih =>
    rw [skipDeclaration] at h
    rw [List.cons_append, skipDeclaration, skipDeclaration]
    split_ifs at h ⊢
    · rfl
    · rfl
    · rw [ih _ h, Skipped.extend_cons]
    · rw [ih _ h, Skipped.extend_cons]
    · rw [ih _ h, Skipped.extend_cons]

theorem skipRule_append (s : Tokens) (depth : Nat) (h : Solid (skipRule depth s).rest)
    (more : Tokens) : skipRule depth (s ++ more) = (skipRule depth s).extend more := by
  induction s generalizing depth with
  | nil => exact absurd h not_solid_nil
  | cons t rest ih =>
    rw [skipRule] at h
    rw [List.cons_append, skipRule, skipRule]
    split_ifs at h ⊢
    · rw [ih _ h, Skipped.extend_cons]
    · rfl
    · rw [ih _ h, Skipped.extend_cons]
    · rw [ih _ h, Skipped.extend_cons]

theorem skipStatement_append (s : Tokens) (depth : Nat) (h : Solid (skipStatement depth s).rest)
    (more : Tokens) : skipStatement depth (s ++ more) = (skipStatement depth s).extend more := by
  induction s generalizing depth with
  | nil => exact absurd h not_solid_nil
  | cons t rest ih =>
    rw [skipStatement] at h
    rw [List.cons_append, skipStatement, skipStatement]
    split_ifs at h ⊢
    · rfl
    · rfl
    · rw [ih _ h, Skipped.extend_cons]
    · rfl
    · rw [ih _ h, Skipped.extend_cons]
    · rw [ih _ h, Skipped.extend_cons]

/-- A broken rule that ends has a brace, and the first one tells which block it closes. -/
theorem closesOuter_append (s : Tokens) (depth : Nat) (h : Solid (skipRule depth s).rest)
    (more : Tokens) : closesOuter (s ++ more) = closesOuter s := by
  induction s with
  | nil => exact absurd h not_solid_nil
  | cons t rest ih =>
    rw [skipRule] at h
    rw [List.cons_append, closesOuter, closesOuter]
    split_ifs at h ⊢
    · rfl
    · rfl
    · rfl
    · exact ih h

end Stylesheet.Grammar
