import Stylesheet.Grammar.Selector
import Stylesheet.Proofs.Grammar.Reads

/-!
# What selectors are read from

One lemma for each production, from the conditions of a compound up to the selectors of a rule with
the brace behind them.
-/

namespace Stylesheet.Grammar

open Computability Production

section

variable {tokens : List Token}

theorem Accepts.idSelector :
    Accepts tokens idSelector fun taken t => Reads tokens (nodeOf .idSelector) taken [t] [] := by
  apply Accepts.bind (.take _ _)
  intro taken id hid
  apply Accepts.pure
  have hkind : Reads tokens (leafOf tokens isId) taken [id] [] :=
    hid.kinds fun k hk => by cases k <;> exact hk
  rw [List.append_nil]
  exact Reads.node hkind (by simp) _

theorem Accepts.classSelector :
    Accepts tokens classSelector fun taken t => Reads tokens (nodeOf .classSelector) taken [t] [] := by
  apply Accepts.bind (.take _ _)
  intro _ dot hdot
  apply Accepts.bind (.take _ _)
  intro _ name hname
  apply Accepts.pure
  have hrow : Reads tokens (production (leafOf tokens) .classSelector) _ _ [] :=
    hdot.cons hname.last
  exact hrow.node (by simp) _

theorem Accepts.attributeMatcher :
    Accepts tokens attributeMatcher fun taken row =>
      Reads tokens (optional [leafOf tokens isComparison, leafOf tokens isIdentOrString].prod)
        taken row [] := by
  apply Accepts.bind (.take? _)
  intro taken comparison hc
  cases comparison with
  | none =>
    cases (show taken = [] from hc)
    exact .pure .absent
  | some comparison =>
    apply Accepts.bind .blank
    intro b _ hb
    apply Accepts.bind (.take _ _)
    intro v value hv
    apply Accepts.bind .blank
    intro c _ hc'
    apply Accepts.pure
    have hvalue : Reads tokens (leafOf tokens isIdentOrString) v [value] [] :=
      hv.kinds fun k hk => by cases k <;> first | rfl | contradiction
    exact (Reads.cons hc ((hvalue.cons (Reads.nil.blank hc')).blank hb)).present

theorem Accepts.attributeSelector :
    Accepts tokens attributeSelector fun taken t =>
      Reads tokens (nodeOf .attributeSelector) taken [t] [] := by
  apply Accepts.bind (.take _ _)
  intro _ bracket hbracket
  apply Accepts.bind .blank
  intro b _ hb
  apply Accepts.bind (.take _ _)
  intro _ name hname
  apply Accepts.bind .blank
  intro c _ hc
  apply Accepts.bind .attributeMatcher
  intro _ matcher hmatcher
  apply Accepts.bind (.take _ _)
  intro _ close hclose
  apply Accepts.pure
  have hrow : Reads tokens (production (leafOf tokens) .attributeSelector) _ _ [] :=
    hbracket.cons ((hname.cons ((hmatcher.cons hclose.last).blank hc)).blank hb)
  exact hrow.node (by simp) _

/-- The argument of a pseudo-class runs up to the parenthesis that closes it. -/
theorem pseudoArgument_reads : ∀ (s : Tokens) (depth : Nat), DrawnFrom tokens s →
    AcceptsAt (pseudoArgument depth) s fun taken row =>
      Reads tokens [(leafOf tokens fun _ => true)∗, leafOf tokens isClosingParen].prod taken row []
  | [], _, _ => by
    intro a rest h
    contradiction
  | t :: s, depth, hs => by
    have ht := hs t List.mem_cons_self
    have hleaf : Reads tokens (leafOf tokens fun _ => true) [t] [t.leaf] [] := .leaf ht rfl
    have step (d : Nat) : ∀ a rest, (pseudoArgument d s).map (t.leaf :: ·) = .accepted a rest →
        ∃ taken, t :: s = taken ++ rest ∧ Reads tokens
          [(leafOf tokens fun _ => true)∗, leafOf tokens isClosingParen].prod taken a [] :=
      AcceptsAt.cons (pseudoArgument_reads s d hs.tail)
        fun _ _ hmore => hleaf.star_before hmore
    intro a rest h
    rw [pseudoArgument] at h
    split at h
    · exact step _ a rest h
    · split at h
      · rename_i hk
        split at h
        · cases h
          have hclose : Reads tokens (leafOf tokens isClosingParen) [t] [t.leaf] [] :=
            .leaf ht (beq_iff_eq.2 hk)
          exact ⟨[t], rfl, Reads.star_nil.cons hclose.last⟩
        · exact step _ a rest h
      · exact step _ a rest h

theorem Accepts.pseudoName :
    Accepts tokens pseudoName fun taken row =>
      Reads tokens (leafOf tokens TokenKind.isIdent +
        [leafOf tokens isFunction, (leafOf tokens fun _ => true)∗,
          leafOf tokens isClosingParen].prod) taken row [] := by
  intro s hs a rest h
  unfold Grammar.pseudoName at h
  cases s with
  | nil => contradiction
  | cons t s =>
    have ht := hs t List.mem_cons_self
    dsimp only at h
    split at h
    · rename_i hk
      cases h
      have hleaf : Reads tokens (leafOf tokens TokenKind.isIdent) [t] [t.leaf] [] :=
        .leaf ht (by rw [hk]; rfl)
      exact ⟨[t], rfl, hleaf.inl⟩
    · rename_i hk
      have hleaf : Reads tokens (leafOf tokens isFunction) [t] [t.leaf] [] :=
        .leaf ht (by rw [hk]; rfl)
      have hargument := pseudoArgument_reads s 0 hs.tail
      obtain ⟨row, e, rfl⟩ := map_eq_accepted h
      obtain ⟨taken, rfl, hmore⟩ := hargument row rest e
      exact ⟨[t] ++ taken, rfl, (hleaf.cons hmore).inr⟩
    · contradiction

theorem Accepts.pseudoSelector :
    Accepts tokens pseudoSelector fun taken t =>
      Reads tokens (nodeOf .pseudoSelector) taken [t] [] := by
  apply Accepts.bind (.take _ _)
  intro _ colon hcolon
  apply Accepts.bind (.take? _)
  intro _ second hsecond
  apply Accepts.bind .pseudoName
  intro _ name hname
  apply Accepts.pure
  have hrow : Reads tokens (production (leafOf tokens) .pseudoSelector) _ _ [] :=
    hcolon.cons (hsecond.optional.cons hname.last)
  exact hrow.node (by simp) _

/-- The kinds of conditions. -/
def conditionKinds : List NodeKind :=
  [.idSelector, .classSelector, .attributeSelector, .pseudoSelector]

theorem Accepts.condition :
    Accepts tokens condition fun taken t => Reads tokens (nodeIn conditionKinds) taken [t] [] := by
  have any {kind : NodeKind} (hk : kind ∈ conditionKinds) {p : Production Tree} {s : Tokens}
      (hp : AcceptsAt p s fun taken t => Reads tokens (nodeOf kind) taken [t] []) :
      AcceptsAt p s fun taken t => Reads tokens (nodeIn conditionKinds) taken [t] [] :=
    hp.mono fun _ _ h => h.widen (List.cons_subset.2 ⟨hk, List.nil_subset _⟩)
  intro s hs a rest h
  unfold Grammar.condition at h
  split at h
  · exact any (by decide) (Accepts.classSelector s hs) a rest h
  · exact any (by decide) (Accepts.attributeSelector s hs) a rest h
  · exact any (by decide) (Accepts.pseudoSelector s hs) a rest h
  · exact any (by decide) (Accepts.idSelector s hs) a rest h

theorem Accepts.conditions :
    Accepts tokens conditions fun taken row =>
      Reads tokens (nodeIn conditionKinds)∗ taken row [] := by
  intro s hs row left h
  fun_induction Grammar.conditions s generalizing row left with
  | case1 => contradiction
  | case2 s _ c rest hc _ ih =>
    obtain ⟨more, e, rfl⟩ := map_eq_accepted h
    obtain ⟨taken, rfl, hreads⟩ := Accepts.condition s hs c rest hc
    obtain ⟨taken', rfl, hmore⟩ := ih hs.right more left e
    exact ⟨taken ++ taken', (List.append_assoc _ _ _).symm, hreads.star_cons hmore⟩
  | case3 s =>
    cases h
    exact ⟨[], rfl, .star_nil⟩

theorem Accepts.namespacePrefix? :
    Accepts tokens namespacePrefix? (Reads.Maybe tokens
      (nodeWith .namespacePrefix (barRow (leafOf tokens)))) := by
  intro s hs prefix? rest h
  have node {taken : Tokens} {row : List Tree} (place : Nat)
      (hr : Reads tokens (barRow (leafOf tokens)) taken row []) :
      Reads tokens (nodeWith .namespacePrefix (barRow (leafOf tokens))) taken
        [.node .namespacePrefix place row] [] :=
    hr.nodeWith (by simp) (fun _ => Or.inr) place
  have bar {t : Placed} {rest : Tokens} (hs : DrawnFrom tokens (t :: rest))
      (hk : (t.kind == .bar) = true) :
      Reads tokens (leafOf tokens (· == .bar)) [t] [t.leaf] [] :=
    .leaf (hs t List.mem_cons_self) hk
  unfold Grammar.namespacePrefix? at h
  split at h
  · rename_i t u rest'
    split at h
    · rename_i hk
      cases h
      exact ⟨[t], rfl, node _ (Reads.absent.cons (bar hs hk).last)⟩
    · split at h
      · rename_i hk
        obtain ⟨ht, hu⟩ := Bool.and_eq_true_iff.1 hk
        cases h
        have hname : Reads tokens (leafOf tokens isNameOrAny) [t] [t.leaf] [] :=
          .leaf (hs t List.mem_cons_self) ht
        have hbar := bar hs.tail hu
        exact ⟨[t, u], rfl, node _ (hname.present.cons hbar.last)⟩
      · cases h
        exact ⟨[], rfl, rfl⟩
  · rename_i t
    split at h
    · rename_i hk
      cases h
      exact ⟨[t], rfl, node _ (Reads.absent.cons (bar hs hk).last)⟩
    · cases h
      exact ⟨[], rfl, rfl⟩
  · cases h
    exact ⟨[], rfl, rfl⟩

/-- Behind a prefix there is a name. -/
theorem Accepts.elementName? (hasPrefix : Bool) :
    Accepts tokens (elementName? hasPrefix) fun taken name =>
      Reads.Maybe tokens (nodeOf .elementName) taken name ∧ (hasPrefix = true → name.isSome) := by
  apply Accepts.bind (.take? _)
  intro taken name hn
  cases name with
  | some name =>
    refine .pure ⟨?_, fun _ => rfl⟩
    have hrow : Reads tokens (production (leafOf tokens) .elementName) taken [name] [] := hn
    rw [List.append_nil]
    exact hrow.node (by simp) _
  | none =>
    cases (show taken = [] from hn)
    dsimp only
    split
    · exact .reject
    · rename_i hp
      exact .pure ⟨rfl, fun h => absurd h hp⟩

theorem Accepts.compound :
    Accepts tokens compound fun taken t => Reads tokens (nodeOf .simpleSelector) taken [t] [] := by
  apply Accepts.bind .namespacePrefix?
  intro v ns hns
  apply Accepts.bind (.elementName? _)
  intro w name hname
  apply Accepts.bind .conditions
  intro u row hrow
  have hhead : Reads tokens (optional
      [optional (nodeWith .namespacePrefix (barRow (leafOf tokens))), nodeOf .elementName].prod)
        (v ++ (w ++ [])) (ns.toList ++ name.toList) [] := by
    -- a prefix never stands alone, since it has to have a name behind it
    cases name with
    | some name => exact (hns.optional.cons (Reads.last hname.1)).present
    | none =>
      cases ns with
      | some ns => exact absurd (hname.2 rfl) (by simp)
      | none =>
        cases (show v = [] from hns)
        cases (show w = [] from hname.1)
        exact .absent
  split
  · exact .reject
  · rename_i part parts e
    apply Accepts.pure
    have hall := hhead.cons hrow.last
    rw [e] at hall
    have hrow : Reads tokens (production (leafOf tokens) .simpleSelector) _ (part :: parts) [] :=
      hall.reshape fun hm => (Language.mem_sub _ _ _).2
        ⟨hm, fun hn => absurd ((Language.mem_one _).1 hn) (List.cons_ne_nil part parts)⟩
    simp only [List.append_nil, List.append_assoc] at hrow ⊢
    exact hrow.node (by simp) _

/-- A token as a combinator. -/
theorem reads_combinator {t : Placed} {s : Tokens} (hs : DrawnFrom tokens s) (ht : t ∈ s)
    (hk : (isCombinator t.kind || t.kind == .whitespace) = true) :
    Reads tokens (nodeOf .combinator) [t] [single .combinator t.leaf] [] := by
  have hleaf : Reads tokens (leafOf tokens fun k => isCombinator k || k == .whitespace) [t]
      [t.leaf] [] := .leaf (hs t ht) hk
  exact Reads.node hleaf (by simp) _

/-- The first of the blanks between two compounds is the combinator, the others are left out. -/
theorem reads_blankCombinator {u t : Placed} {s b left : Tokens}
    (hs : DrawnFrom tokens (u :: s)) (hb : Blank b) (hu : Tokens.isBlank u = true)
    (ht : startsCompound t.kind = true) (e : u :: s = b ++ t :: left) :
    ∃ taken, u :: s = taken ++ t :: left ∧
      Reads tokens (nodeOf .combinator) taken [single .combinator u.leaf] [] := by
  have hk : u.kind = .whitespace := beq_iff_eq.1 hu
  cases b with
  | nil =>
    obtain ⟨rfl, -⟩ := List.cons.inj e
    rw [hk] at ht
    contradiction
  | cons v b =>
    obtain ⟨rfl, -⟩ := List.cons.inj e
    have hblank := reads_combinator hs List.mem_cons_self (by rw [hk]; rfl)
    exact ⟨[u] ++ b, e, hblank.blankBehind fun v hv => hb v (List.mem_cons_of_mem u hv)⟩

/-- A combinator is a node of its own: a sign, or the first blank. -/
theorem Accepts.combinator? :
    Accepts tokens combinator? fun taken c =>
      match c with
      | some c => Reads tokens (nodeOf .combinator) taken [c] []
      | none => Blank taken := by
  intro s hs a rest h
  obtain ⟨b, hb, e⟩ := exists_blank s
  unfold Grammar.combinator? at h
  split at h
  · rename_i hk
    cases h
    exact ⟨b, by rw [hk] at e; exact e, hb⟩
  · rename_i t left hk
    rw [hk] at e
    split at h
    · -- a sign, with the blanks on both sides of it
      rename_i hc
      cases h
      have ht : t ∈ s := by
        rw [e]
        exact List.mem_append_right b List.mem_cons_self
      obtain ⟨d, hd, e'⟩ := exists_blank left
      have hsign := reads_combinator hs ht (by rw [hc, Bool.true_or])
      refine ⟨(b ++ [t]) ++ d, ?_, (hsign.blank hb).blankBehind hd⟩
      rw [e]
      simp [← e']
    · split at h
      · rename_i hstart
        split at h
        · split at h
          · rename_i hu
            cases h
            exact reads_blankCombinator hs hb hu hstart e
          · contradiction
        · contradiction
      · cases h
        exact ⟨b, e, hb⟩

theorem Accepts.selectorTail :
    Accepts tokens selectorTail fun taken row =>
      Reads tokens (nodeOf .combinator * nodeOf .simpleSelector)∗ taken row [] := by
  intro s hs row left h
  fun_induction Grammar.selectorTail s generalizing row left with
  | case1 => contradiction
  | case2 s rest hc =>
    cases h
    obtain ⟨taken, rfl, hb⟩ := Accepts.combinator? s hs none rest hc
    exact ⟨taken ++ [], by rw [List.append_nil], Reads.star_nil.blank hb⟩
  | case3 => contradiction
  | case4 s c between hc part rest hp _ ih =>
    obtain ⟨more, e, rfl⟩ := map_eq_accepted h
    obtain ⟨taken, rfl, hcomb⟩ := Accepts.combinator? s hs (some c) between hc
    obtain ⟨taken', rfl, hpart⟩ := Accepts.compound between hs.right part rest hp
    obtain ⟨taken'', rfl, hmore⟩ := ih hs.right.right more left e
    refine ⟨taken ++ (taken' ++ (taken'' ++ [])), by simp, ?_⟩
    exact (Reads.cons hcomb (hpart.cons hmore.last)).again

theorem Accepts.selector :
    Accepts tokens selector fun taken t => Reads tokens (nodeOf .selector) taken [t] [] := by
  apply Accepts.bind .compound
  intro _ part hpart
  apply Accepts.bind .selectorTail
  intro _ more hmore
  apply Accepts.pure
  have hrow : Reads tokens (production (leafOf tokens) .selector) _ (part :: more) [] :=
    hpart.append hmore
  rw [List.append_nil]
  exact hrow.node (by simp) _

theorem Accepts.selectorListTail :
    Accepts tokens selectorListTail fun taken row =>
      Reads tokens (leafOf tokens (· == .comma) * nodeOf .selector)∗ taken row [] := by
  intro s hs row left h
  fun_induction Grammar.selectorListTail s generalizing row left with
  | case1 =>
    cases h
    exact ⟨[], rfl, .star_nil⟩
  | case2 => contradiction
  | case3 comma rest hk next rest' hn _ ih =>
    obtain ⟨more, e, rfl⟩ := map_eq_accepted h
    have hcomma : Reads tokens (leafOf tokens (· == .comma)) [comma] [comma.leaf] [] :=
      .leaf (hs comma List.mem_cons_self) (beq_iff_eq.2 hk)
    obtain ⟨b, hb, er⟩ := exists_blank rest
    have hs' : DrawnFrom tokens (Tokens.skipBlank rest) := (er ▸ hs.tail).right
    obtain ⟨taken, er', hnext⟩ := Accepts.selector _ hs' next rest' hn
    obtain ⟨taken', rfl, hmore⟩ := ih (er' ▸ hs').right more left e
    refine ⟨[comma] ++ (b ++ (taken ++ (taken' ++ []))), ?_, ?_⟩
    · rw [er, er']
      simp
    · exact (hcomma.cons ((hnext.cons hmore.last).blank hb)).again
  | case4 =>
    cases h
    exact ⟨[], rfl, .star_nil⟩

theorem Accepts.selectorList :
    Accepts tokens selectorList fun taken t => Reads tokens (nodeOf .selectorList) taken [t] [] := by
  apply Accepts.bind .selector
  intro _ first hfirst
  apply Accepts.bind .selectorListTail
  intro _ more hmore
  apply Accepts.pure
  have hrow : Reads tokens (production (leafOf tokens) .selectorList) _ (first :: more) [] :=
    hfirst.append hmore
  rw [List.append_nil]
  exact hrow.node (by simp) _

/-- The selectors of a rule, and then the brace of its block. -/
theorem Accepts.rulePrelude :
    Accepts tokens rulePrelude fun taken p => ∃ front brace, taken = front ++ brace ∧
      Reads tokens (nodeOf .selectorList) front [p.1] [] ∧
      Reads tokens (leafOf tokens (· == .opening .brace)) brace [p.2] [] := by
  apply Accepts.bind .selectorList
  intro front _ hfront
  apply Accepts.bind (.take _ _)
  intro brace _ hbrace
  apply Accepts.pure
  exact ⟨front, brace, by rw [List.append_nil], hfront, hbrace⟩

end

end Stylesheet.Grammar
