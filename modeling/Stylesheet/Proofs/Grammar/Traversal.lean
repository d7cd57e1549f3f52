import Stylesheet.Proofs.Grammar.Progress
import Stylesheet.Proofs.Grammar.Statement

/-!
# The trees of statements

The loops over statements and over the rules of a media block put together what other productions read:
selector lists, media queries and blocks of declarations. A property that these trees and all leaves have,
and that goes over from trees to the nodes that hold them (`Traversal`), is one of every statement
(`Traversal.statements`).
-/

namespace Stylesheet.Grammar

open Production

/-- The nodes of which the loops and the at-rules are made, above what is read as a whole. -/
def holders : List NodeKind :=
  [.namespaceRule, .namespacePrefix, .fontFaceRule, .mediaRule, .mediaQueryList, .unknownAtRule, .rule,
    .error]

/-- A property of trees that goes through statements, where productions read the ends of `all`. -/
structure Traversal (st : Setting) (all : Tokens) (P : Tree → Prop) : Prop where
  leaf (index : Nat) : P (.leaf index)
  node {kind : NodeKind} (hk : kind ∈ holders) (place : Nat) {children : List Tree}
    (hs : ∀ t ∈ children, P t) : P (.node kind place children)
  selectors {s rest : Tokens} {t : Tree} (hs : s <:+ all) (h : selectorList s = .accepted t rest) : P t
  query {s rest : Tokens} {t : Tree} (hs : s <:+ all) (h : mediaQuery s = .accepted t rest) : P t
  block {brace : Placed} {rest : Tokens} (hs : brace :: rest <:+ all)
    (hk : brace.kind = .opening .brace) : P (declarationBlock st brace.leaf rest).result

/-- The brace of a font face rule, and what is left behind it. -/
theorem fontFaceBrace_eq_accepted {s left : Tokens} {brace : Tree}
    (h : fontFaceBrace s = .accepted brace left) :
    ∃ t : Placed, brace = t.leaf ∧ t.kind = .opening .brace ∧ t :: left <:+ s := by
  obtain ⟨_, mid, hm, h⟩ := bind_eq_accepted h
  cases mid with
  | nil => contradiction
  | cons t mid =>
    rw [take_cons] at h
    split at h <;> cases h
    rename_i ht
    exact ⟨t, rfl, eq_of_beq ht, suffix_of_accepted Advances.blank hm⟩

namespace Traversal

variable {st : Setting} {all : Tokens} {P : Tree → Prop} (h : Traversal st all P)

include h

theorem keeps {k : Skipped} {s : Tokens} (hk : k.Keeps s) : ∀ t ∈ k.leaves, P t := by
  obtain ⟨taken, -, e⟩ := hk
  intro t ht
  rw [e] at ht
  obtain ⟨u, -, rfl⟩ := List.mem_map.1 ht
  exact h.leaf u.index

theorem unknownAtRule (keyword : Placed) (rest : Tokens) : P (unknownAtRule keyword rest).result :=
  h.node (by decide) _ (List.forall_mem_cons.2
    ⟨h.leaf keyword.index, h.keeps (skipStatement_keeps rest 0)⟩)

theorem brokenAtRule (keyword : Placed) (f : Fault) (rest : Tokens) :
    P (brokenAtRule st keyword f rest).result :=
  h.node (by decide) _ (h.keeps (skipStatement_keeps rest 0))

theorem strayToken (expected : String) (t : Placed) (rest : Tokens) :
    P (strayToken st expected t rest).result :=
  h.node (by decide) _ (List.forall_mem_singleton.2 (h.leaf t.index))

theorem namespaceContent {s rest : Tokens} {trees : List Tree} {missing : Option Fault}
    (hc : namespaceContent s = .accepted (trees, missing) rest) : ∀ t ∈ trees, P t := by
  obtain ⟨_, s₁, -, hc⟩ := bind_eq_accepted hc
  obtain ⟨nsPrefix, s₂, hp, hc⟩ := bind_eq_accepted hc
  obtain ⟨_, s₃, -, hc⟩ := bind_eq_accepted hc
  obtain ⟨_, s₄, -, hc⟩ := bind_eq_accepted hc
  obtain ⟨t, s₅, -, -, hc⟩ := bind_take_eq_accepted hc
  obtain ⟨_, s₆, -, hc⟩ := bind_eq_accepted hc
  obtain ⟨semicolon, s₇, hs, hc⟩ := bind_eq_accepted hc
  cases hc
  intro u hu
  rcases List.mem_append.1 hu with hu | hu
  · cases nsPrefix with
    | none => contradiction
    | some nsPrefix =>
      obtain ⟨v, rfl⟩ := take?_eq_accepted hp
      rw [List.mem_singleton.1 hu]
      exact h.node (by decide) _ (List.forall_mem_singleton.2 (h.leaf v.index))
  · rcases List.mem_cons.1 hu with rfl | hu
    · exact h.leaf t.index
    · cases semicolon with
      | none => contradiction
      | some semicolon =>
        obtain ⟨v, rfl⟩ := take?_eq_accepted hs
        rw [List.mem_singleton.1 hu]
        exact h.leaf v.index

variable {s : Tokens} (hs : s <:+ all)

include hs

theorem rule : P (rule st s).result.1 := by
  rw [Grammar.rule]
  split
  · rename_i selectors brace left hr
    obtain ⟨list, mid, hl, hr⟩ := bind_eq_accepted hr
    obtain ⟨t, between, rfl, ht, hr⟩ := bind_take_eq_accepted hr
    cases hr
    have hm : t :: left <:+ all := (suffix_of_accepted selectorList_advances hl).trans hs
    exact h.node (by decide) _ (List.forall_mem_cons.2
      ⟨h.selectors hs hl, List.forall_mem_singleton.2 (h.block hm (eq_of_beq ht))⟩)
  · exact h.node (by decide) _ (h.keeps (skipRule_keeps _ 0))

theorem furtherQueries {row : List Tree} {left : Tokens}
    (hq : furtherQueries s = .accepted row left) : ∀ t ∈ row, P t := by
  fun_induction Grammar.furtherQueries s generalizing row left with
  | case1 => cases hq; simp
  | case2 => contradiction
  | case3 comma rest _ next left' he _ ih =>
    obtain ⟨more, e, rfl⟩ := map_eq_accepted hq
    have hr : rest <:+ all := (List.suffix_cons comma rest).trans hs
    have hl : left' <:+ all := (suffix_of_accepted mediaQuery_advances he).trans hr
    exact List.forall_mem_cons.2
      ⟨h.leaf comma.index, List.forall_mem_cons.2 ⟨h.query hr he, ih hl e⟩⟩
  | case4 => cases hq; simp

theorem mediaPrelude {queries brace : Tree} {left : Tokens}
    (hp : mediaPrelude s = .accepted (queries, brace) left) : P queries ∧ P brace := by
  obtain ⟨_, _, ha, hp⟩ := bind_eq_accepted hp
  cases ha
  obtain ⟨row, mid, hq, hp⟩ := bind_eq_accepted hp
  obtain ⟨t, between, -, -, hp⟩ := bind_take_eq_accepted hp
  cases hp
  refine ⟨h.node (by decide) _ ?_, h.leaf t.index⟩
  rw [mediaQueries, bind_apply, ahead_apply] at hq
  dsimp only at hq
  split at hq
  · cases hq
    simp
  · obtain ⟨first, behind, hf, hq⟩ := bind_eq_accepted hq
    obtain ⟨more, left, hm, hq⟩ := bind_eq_accepted hq
    cases hq
    have hb : behind <:+ all := (suffix_of_accepted mediaQuery_advances hf).trans hs
    exact List.forall_mem_cons.2 ⟨h.query hs hf, h.furtherQueries hb hm⟩

theorem mediaBlock : ∀ t ∈ (mediaBlock st s).result, P t := by
  have hb := (Tokens.skipBlank_suffix s).trans hs
  fun_induction Grammar.mediaBlock st s with
  | case1 => simp
  | case2 s _ t rest e => exact List.forall_mem_singleton.2 (h.leaf t.index)
  | case3 s _ t rest e _ _ _ p _ ih =>
    rw [e] at hb
    have hr : p.rest <:+ all :=
      (unknownAtRule_suffix t rest).trans ((List.suffix_cons t rest).trans hb)
    exact List.forall_mem_cons.2
      ⟨h.unknownAtRule t rest, ih hr ((Tokens.skipBlank_suffix _).trans hr)⟩
  | case4 s _ t rest e _ _ _ _ p _ ih =>
    rw [e] at hb
    have hr : p.rest <:+ all := (List.suffix_cons t rest).trans hb
    exact List.forall_mem_cons.2
      ⟨h.strayToken "rule" t rest, ih hr ((Tokens.skipBlank_suffix _).trans hr)⟩
  | case5 s _ t rest e _ _ _ _ p _ _ =>
    rw [e] at hb
    exact List.forall_mem_singleton.2 (h.rule hb)
  | case6 s _ t rest e _ _ _ _ p _ _ ih =>
    rw [e] at hb
    have hr : p.rest <:+ all := (rule_suffix st (t :: rest)).trans hb
    exact List.forall_mem_cons.2 ⟨h.rule hb, ih hr ((Tokens.skipBlank_suffix _).trans hr)⟩

theorem atRule (keyword : Placed) (name : String) : P (atRule st keyword name s).result := by
  unfold Grammar.atRule
  split
  · split
    · rename_i trees missing left hc
      exact h.node (by decide) _ (List.forall_mem_cons.2
        ⟨h.leaf keyword.index, h.namespaceContent hc⟩)
    · exact h.brokenAtRule keyword _ _
  · split
    · split
      · rename_i brace left hb
        obtain ⟨t, rfl, ht, hl⟩ := fontFaceBrace_eq_accepted hb
        exact h.node (by decide) _ (List.forall_mem_cons.2
          ⟨h.leaf keyword.index, List.forall_mem_singleton.2 (h.block (hl.trans hs) ht)⟩)
      · exact h.brokenAtRule keyword _ _
    · split
      · split
        · rename_i queries brace left hp
          have hk := (Tokens.skipBlank_suffix s).trans hs
          have hl : left <:+ all := (suffix_of_accepted mediaPrelude_advances hp).trans hk
          obtain ⟨hq, hb⟩ := h.mediaPrelude hk hp
          exact h.node (by decide) _ (List.forall_mem_cons.2 ⟨h.leaf keyword.index,
            List.forall_mem_cons.2 ⟨hq, List.forall_mem_cons.2 ⟨hb, h.mediaBlock hl⟩⟩⟩)
        · exact h.brokenAtRule keyword _ _
      · exact h.unknownAtRule keyword s

theorem statements : ∀ t ∈ (statements st s).result, P t := by
  have hb := (Tokens.skipBlank_suffix s).trans hs
  fun_induction Grammar.statements st s with
  | case1 => simp
  | case2 s _ t rest e p _ ih =>
    rw [e] at hb
    have ht := (List.suffix_cons t rest).trans hb
    have hr : p.rest <:+ all := (statement_suffix st t rest).trans ht
    refine List.forall_mem_cons.2 ⟨?_, ih hr ((Tokens.skipBlank_suffix _).trans hr)⟩
    show P (statement st t rest).result
    unfold statement
    split
    · exact h.atRule ht t _
    · split
      · exact h.strayToken _ t rest
      · exact h.rule hb

end Traversal

end Stylesheet.Grammar
