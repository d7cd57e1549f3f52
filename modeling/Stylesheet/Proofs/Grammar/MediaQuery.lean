import Stylesheet.Grammar.MediaQuery
import Stylesheet.Proofs.Grammar.Value

/-!
# What media queries are read from

One lemma for each production, from the value of a feature up to the queries of a rule with the brace
behind them.
-/

namespace Stylesheet.Grammar

open Computability Production

section

variable {tokens : List Token}

theorem Accepts.featureValue :
    Accepts tokens featureValue fun taken row =>
      Reads tokens (optional [leafOf tokens (· == .colon), valueNode (leafOf tokens) false].prod)
        taken row [] := by
  apply Accepts.bind (.take? _)
  intro taken colon hcolon
  cases colon with
  | none =>
    cases (show taken = [] from hcolon)
    exact .pure .absent
  | some colon =>
    apply Accepts.bind .blank
    intro _ _ hb
    apply Accepts.bind (.value false)
    intro _ v hv
    apply Accepts.bind .blank
    intro _ _ hc
    apply Accepts.pure
    exact (Reads.cons hcolon ((hv.cons (Reads.nil.blank hc)).blank hb)).present

theorem Accepts.mediaFeature :
    Accepts tokens mediaFeature fun taken t => Reads tokens (nodeOf .mediaFeature) taken [t] [] := by
  apply Accepts.bind (.take _ _)
  intro _ paren hparen
  apply Accepts.bind .blank
  intro _ _ hb
  apply Accepts.bind (.take _ _)
  intro _ name hname
  apply Accepts.bind .blank
  intro _ _ hc
  apply Accepts.bind .featureValue
  intro _ v hv
  apply Accepts.bind (.take _ _)
  intro _ close hclose
  apply Accepts.pure
  have hrow : Reads tokens (production (leafOf tokens) .mediaFeature) _ _ [] :=
    hparen.cons ((hname.cons ((hv.cons hclose.last).blank hc)).blank hb)
  exact hrow.node (by simp) _

/-- How a query begins. -/
def queryHead (tokens : List Token) : Language Tree :=
  [leafOf tokens isQualifier, leafOf tokens isMediaType].prod + leafOf tokens isMediaType +
    nodeOf .mediaFeature

theorem Accepts.mediaQueryHead :
    Accepts tokens mediaQueryHead fun taken row => Reads tokens (queryHead tokens) taken row [] := by
  apply Accepts.bind .blank
  intro _ _ hb
  apply Accepts.bind .ahead
  intro taken s ht
  cases ht
  refine .ite ?_ (.ite ?_ ?_)
  · apply Accepts.bind (.take _ _)
    intro _ qualifier hq
    apply Accepts.bind .blank
    intro _ _ hc
    apply Accepts.bind (.take _ _)
    intro _ mediaType hm
    apply Accepts.pure
    exact (hq.cons (hm.last.blank hc)).inl.inl.blank hb
  · apply Accepts.bind (.take _ _)
    intro _ mediaType hm
    apply Accepts.pure
    rw [List.append_nil]
    exact hm.inr.inl.blank hb
  · apply Accepts.bind .mediaFeature
    intro _ feature hf
    apply Accepts.pure
    rw [List.append_nil]
    exact hf.inr.blank hb

theorem Accepts.furtherFeature :
    Accepts tokens furtherFeature fun taken row =>
      Reads tokens [leafOf tokens isAnd, nodeOf .mediaFeature].prod taken row [] := by
  apply Accepts.bind (.take _ _)
  intro _ _ hand
  apply Accepts.bind .blank
  intro _ _ hb
  apply Accepts.bind .mediaFeature
  intro _ _ hf
  apply Accepts.pure
  exact hand.cons (hf.last.blank hb)

theorem Accepts.furtherFeatures :
    Accepts tokens furtherFeatures fun taken row =>
      Reads tokens [leafOf tokens isAnd, nodeOf .mediaFeature].prod∗ taken row [] := by
  intro s hs row left h
  fun_induction Grammar.furtherFeatures s generalizing row left with
  | case1 => contradiction
  | case2 s _ feature rest hf _ ih =>
    obtain ⟨more, e, rfl⟩ := map_eq_accepted h
    obtain ⟨b, hb, es⟩ := exists_blank s
    have hs' : DrawnFrom tokens (Tokens.skipBlank s) := (es ▸ hs).right
    obtain ⟨taken, ef, hfeature⟩ := Accepts.furtherFeature _ hs' feature rest hf
    obtain ⟨taken', rfl, hmore⟩ := ih (ef ▸ hs').right more left e
    refine ⟨b ++ (taken ++ taken'), ?_, (hfeature.star_cons hmore).blank hb⟩
    rw [es, ef, List.append_assoc, List.append_assoc]
  | case3 s =>
    cases h
    obtain ⟨b, hb, es⟩ := exists_blank s
    exact ⟨b ++ [], by rw [List.append_nil]; exact es, Reads.star_nil.blank hb⟩

theorem Accepts.mediaQuery :
    Accepts tokens mediaQuery fun taken t => Reads tokens (nodeOf .mediaQuery) taken [t] [] := by
  apply Accepts.bind .ahead
  intro taken s ht
  cases ht
  apply Accepts.bind .mediaQueryHead
  intro _ head hhead
  apply Accepts.bind .furtherFeatures
  intro _ more hmore
  apply Accepts.pure
  have hrow : Reads tokens (production (leafOf tokens) .mediaQuery) _ (head ++ more) [] :=
    hhead.cons hmore.last
  exact hrow.node (by simp) _

/-- Behind a word that could be a qualifier and is none, there is no other word. -/
theorem startsWith_isAnd_eq_false {t : Placed} {rest : Tokens} (hq : isQualifier t.kind = true)
    (hn : startsQualified (t :: rest) ≠ true) :
    (Tokens.skipBlank rest).startsWith isAnd = false := by
  rw [startsQualified, hq, Bool.true_and] at hn
  cases hk : Tokens.skipBlank rest with
  | nil => rfl
  | cons u left =>
    rw [hk, Tokens.startsWith] at hn
    rw [Tokens.startsWith]
    cases he : u.kind with
    | ident => rw [he] at hn; exact absurd rfl hn
    | _ => rfl

/-- How a query begins, with what a medium that could be read as a qualifier says of the tokens
    behind it. -/
theorem mediaQueryHead_accepted {s rest : Tokens} {head : List Tree} (hs : DrawnFrom tokens s)
    (h : mediaQueryHead s = .accepted head rest) :
    head ∈ [leafOf tokens isQualifier, leafOf tokens isMediaType].prod ∨
      (head ∈ leafOf tokens fun k => isMediaType k && !isQualifier k) ∨
      (head ∈ leafOf tokens isMediaType ∧ (Tokens.skipBlank rest).startsWith isAnd = false) ∨
      head ∈ nodeOf .mediaFeature := by
  have hb := hs.skipBlank
  obtain ⟨_, _, e, h⟩ := bind_eq_accepted h
  cases e
  obtain ⟨_, _, e, h⟩ := bind_eq_accepted h
  cases e
  split at h
  · obtain ⟨q, s₁, e, hq, h⟩ := bind_take_eq_accepted h
    obtain ⟨_, s₂, e₁, h⟩ := bind_eq_accepted h
    cases e₁
    obtain ⟨m, s₃, e₂, hm, h⟩ := bind_take_eq_accepted h
    cases h
    rw [e] at hb
    have hm' := hb.tail.skipBlank
    rw [e₂] at hm'
    have hqualifier : Reads tokens (leafOf tokens isQualifier) [q] [q.leaf] [] :=
      .leaf (hb q List.mem_cons_self) hq
    have hmedium : Reads tokens (leafOf tokens isMediaType) [m] [m.leaf] [] :=
      .leaf (hm' m List.mem_cons_self) hm
    exact Or.inl (hqualifier.cons hmedium.last).shape
  · rename_i hn
    split at h
    · obtain ⟨m, s₁, e, hm, h⟩ := bind_take_eq_accepted h
      cases h
      rw [e] at hb hn
      have hmedium {p : TokenKind → Bool} (hp : p m.kind = true) : [m.leaf] ∈ leafOf tokens p :=
        ⟨m.index, m.token, (hb m List.mem_cons_self).1, (hb m List.mem_cons_self).2, hp, rfl⟩
      by_cases hq : isQualifier m.kind = true
      · exact Or.inr (Or.inr (Or.inl ⟨hmedium hm, startsWith_isAnd_eq_false hq hn⟩))
      · refine Or.inr (Or.inl (hmedium ?_))
        rw [hm, Bool.eq_false_iff.2 hq]
        rfl
    · obtain ⟨feature, s₁, hf, h⟩ := bind_eq_accepted h
      cases h
      obtain ⟨taken, -, hreads⟩ := Accepts.mediaFeature _ hb feature _ hf
      exact Or.inr (Or.inr (Or.inr hreads.shape))

/-- A query: its head, which is a qualified medium, a medium or a feature, and what is joined to it.
    Where a medium could be read as a qualifier, nothing is joined to it. -/
theorem mediaQuery_accepted {s rest : Tokens} {t : Tree} (hs : DrawnFrom tokens s)
    (h : mediaQuery s = .accepted t rest) :
    ∃ place head more, t = .node .mediaQuery place (head ++ more) ∧
      more ∈ [leafOf tokens isAnd, nodeOf .mediaFeature].prod∗ ∧
      (head ∈ [leafOf tokens isQualifier, leafOf tokens isMediaType].prod ∨
        (head ∈ leafOf tokens fun k => isMediaType k && !isQualifier k) ∨
        (head ∈ leafOf tokens isMediaType ∧ more = []) ∨ head ∈ nodeOf .mediaFeature) := by
  obtain ⟨_, _, ha, h⟩ := bind_eq_accepted h
  cases ha
  obtain ⟨head, mid, hhead, h⟩ := bind_eq_accepted h
  obtain ⟨more, _, hmore, h⟩ := bind_eq_accepted h
  cases h
  have hmid : DrawnFrom tokens mid := by
    obtain ⟨taken, rfl, -⟩ := Accepts.mediaQueryHead s hs head mid hhead
    exact hs.right
  obtain ⟨taken, -, hm⟩ := Accepts.furtherFeatures mid hmid more _ hmore
  refine ⟨_, head, more, rfl, hm.shape, ?_⟩
  -- what is joined to the head begins with `and`
  have alone (hand : (Tokens.skipBlank mid).startsWith isAnd = false) : more = [] := by
    rw [furtherFeatures, hand] at hmore
    cases hmore
    rfl
  exact (mediaQueryHead_accepted hs hhead).imp_right
    (Or.imp_right (Or.imp_left (And.imp_right alone)))

theorem Accepts.furtherQueries :
    Accepts tokens furtherQueries fun taken row =>
      Reads tokens (leafOf tokens (· == .comma) * nodeOf .mediaQuery)∗ taken row [] := by
  intro s hs row left h
  fun_induction Grammar.furtherQueries s generalizing row left with
  | case1 =>
    cases h
    exact ⟨[], rfl, .star_nil⟩
  | case2 => contradiction
  | case3 comma rest hk next rest' hn _ ih =>
    obtain ⟨more, e, rfl⟩ := map_eq_accepted h
    have hcomma : Reads tokens (leafOf tokens (· == .comma)) [comma] [comma.leaf] [] :=
      .leaf (hs comma List.mem_cons_self) (beq_iff_eq.2 hk)
    obtain ⟨taken, rfl, hnext⟩ := Accepts.mediaQuery rest hs.tail next rest' hn
    obtain ⟨taken', rfl, hmore⟩ := ih hs.tail.right more left e
    refine ⟨[comma] ++ (taken ++ (taken' ++ [])), by simp, ?_⟩
    exact (hcomma.cons (hnext.cons hmore.last)).again
  | case4 =>
    cases h
    exact ⟨[], rfl, .star_nil⟩

theorem Accepts.mediaQueries :
    Accepts tokens mediaQueries fun taken row =>
      Reads tokens (production (leafOf tokens) .mediaQueryList) taken row [] := by
  apply Accepts.bind .ahead
  intro taken s ht
  cases ht
  refine .ite (.pure .absent) ?_
  apply Accepts.bind .mediaQuery
  intro _ first hfirst
  apply Accepts.bind .furtherQueries
  intro _ more hmore
  apply Accepts.pure
  have hrow : Reads tokens (separated (nodeOf .mediaQuery) (leafOf tokens (· == .comma))) _
      (first :: more) [] := hfirst.append hmore
  rw [List.append_nil]
  exact hrow.present

/-- The queries of a rule, and then the brace of its block. -/
theorem Accepts.mediaPrelude :
    Accepts tokens mediaPrelude fun taken p =>
      Reads tokens [nodeOf .mediaQueryList, leafOf tokens (· == .opening .brace)].prod taken
        [p.1, p.2] [] := by
  apply Accepts.bind .ahead
  intro taken s ht
  cases ht
  apply Accepts.bind .mediaQueries
  intro _ queries hqueries
  apply Accepts.bind (.take _ _)
  intro _ brace hbrace
  apply Accepts.pure
  exact (hqueries.node (by simp) _).cons hbrace.last

end

end Stylesheet.Grammar
