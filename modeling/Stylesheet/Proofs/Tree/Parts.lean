import Stylesheet.Proofs.Grammar.Traversal

/-!
# The parts of a stylesheet

Statements and blocks are put together of parts that are read as a whole: declarations, selector
lists and media queries. In the tree of a stylesheet, each node of these three kinds was accepted by
its production at some place of the input (`statements_assembled`); the nodes above them only hold
them together.
-/

namespace Stylesheet.Grammar

open Production

/-- The production that reads a part. -/
def partReader? : NodeKind → Option (Production Tree)
  | .declaration => some declaration
  | .selectorList => some selectorList
  | .mediaQuery => some mediaQuery
  | _ => none

/-- A tree whose parts were accepted among the tokens `all`. -/
inductive Assembled (all : Tokens) : Tree → Prop
  | leaf (index : Nat) : Assembled all (.leaf index)
  | node {kind : NodeKind} (hk : partReader? kind = none) (place : Nat) {children : List Tree}
      (hs : ∀ t ∈ children, Assembled all t) : Assembled all (.node kind place children)
  | part {kind : NodeKind} {p : Production Tree} (hp : partReader? kind = some p) {s rest : Tokens}
      (hs : s <:+ all) {t : Tree} (hk : t.kind? = some kind) (h : p s = .accepted t rest) :
      Assembled all t

variable {tokens : List Token} {all s rest : Tokens}

/-- What stands below a node that is no part. -/
theorem Assembled.child {t u : Tree} {kind : NodeKind} (h : Assembled all t)
    (hk : t.kind? = some kind) (hp : partReader? kind = none) (hu : u ∈ t.children) :
    Assembled all u := by
  cases h with
  | leaf => contradiction
  | node _ _ hs => exact hs u hu
  | part hp' _ hk' _ =>
    rw [hk] at hk'
    cases hk'
    rw [hp] at hp'
    contradiction

/-- Where a part comes from. -/
theorem Assembled.source {t : Tree} {kind : NodeKind} {p : Production Tree} (h : Assembled all t)
    (hk : t.kind? = some kind) (hp : partReader? kind = some p) :
    ∃ s rest, s <:+ all ∧ p s = .accepted t rest := by
  cases h with
  | leaf => contradiction
  | node hn _ _ =>
    cases hk
    rw [hp] at hn
    contradiction
  | @part kind' p' hp' s rest hs _ hk' h =>
    rw [hk] at hk'
    cases hk'
    rw [hp] at hp'
    cases hp'
    exact ⟨s, rest, hs, h⟩

theorem assembled_leaves (ts : Tokens) : ∀ t ∈ ts.map Placed.leaf, Assembled all t := by
  intro t ht
  obtain ⟨u, -, rfl⟩ := List.mem_map.1 ht
  exact .leaf u.index

theorem Skipped.Keeps.assembled {k : Skipped} (h : k.Keeps s) : ∀ t ∈ k.leaves, Assembled all t := by
  obtain ⟨taken, -, e⟩ := h
  rw [e]
  exact assembled_leaves taken

/-- The kind of a node that was read. -/
theorem Reads.kind?_eq {kind : NodeKind} {taken : Tokens} {t : Tree} {rs : List Recovery}
    (h : Reads tokens (nodeOf kind) taken [t] rs) : t.kind? = some kind := by
  obtain ⟨kind', hk, place, children, e⟩ := h.shape
  cases List.mem_singleton.1 hk
  cases e
  rfl

/-- What a part was made of. -/
theorem Assembled.reads {t : Tree} {kind : NodeKind} {p : Production Tree} (h : Assembled all t)
    (hd : DrawnFrom tokens all) (hk : t.kind? = some kind) (hp : partReader? kind = some p) :
    ∃ taken, taken <:+: all ∧ Reads tokens (nodeOf kind) taken [t] [] := by
  obtain ⟨s, rest, hs, ht⟩ := h.source hk hp
  have hds : DrawnFrom tokens s := hd.of_suffix hs
  have hreads : ∃ taken, s = taken ++ rest ∧ Reads tokens (nodeOf kind) taken [t] [] := by
    cases kind with
    | declaration => cases hp; exact Accepts.declaration s hds t rest ht
    | selectorList => cases hp; exact Accepts.selectorList s hds t rest ht
    | mediaQuery => cases hp; exact Accepts.mediaQuery s hds t rest ht
    | _ => contradiction
  obtain ⟨taken, rfl, hreads⟩ := hreads
  exact ⟨taken, (List.prefix_append taken rest).isInfix.trans hs.isInfix, hreads⟩

section

variable (st : Setting) (hd : DrawnFrom tokens all) (hs : s <:+ all)
include hd hs

theorem declarations_assembled : ∀ t ∈ (declarations st s).result, Assembled all t := by
  have hb := (Tokens.skipBlank_suffix s).trans hs
  fun_induction declarations st s with
  | case1 => simp
  | case2 s _ t rest h =>
    exact List.forall_mem_singleton.2 (.leaf t.index)
  | case3 s _ t rest h _ _ _ ih =>
    rw [h] at hb
    have hr : rest <:+ all := (List.suffix_cons t rest).trans hb
    exact List.forall_mem_cons.2 ⟨.leaf t.index, ih hr ((Tokens.skipBlank_suffix rest).trans hr)⟩
  | case4 s _ t rest h _ _ _ d left he _ ih =>
    rw [h] at hb
    have hr : left <:+ all := (suffix_of_accepted declaration_advances he).trans hb
    obtain ⟨taken, -, hreads⟩ := Accepts.declaration _ (hd.of_suffix hb) d left he
    exact List.forall_mem_cons.2
      ⟨.part rfl hb hreads.kind?_eq he, ih hr ((Tokens.skipBlank_suffix left).trans hr)⟩
  | case5 s _ t rest h _ hk _ f left he _ ih =>
    rw [h] at hb
    have hr : (skipDeclaration 0 left).rest <:+ all :=
      (skipDeclaration_rejected he hk).trans ((List.suffix_cons t rest).trans hb)
    exact List.forall_mem_cons.2 ⟨.node rfl _ (skipDeclaration_keeps left 0).assembled,
      ih hr ((Tokens.skipBlank_suffix _).trans hr)⟩

omit hs in
/-- Selector lists and media queries are parts, and blocks are made of them. -/
theorem Assembled.traversal : Traversal st all (Assembled all) where
  leaf := .leaf
  node hk place _ hs :=
    have hnone : ∀ kind ∈ holders, partReader? kind = none := by decide
    .node (hnone _ hk) place hs
  selectors hs h := by
    obtain ⟨taken, -, hreads⟩ := Accepts.selectorList _ (hd.of_suffix hs) _ _ h
    exact .part rfl hs hreads.kind?_eq h
  query hs h := by
    obtain ⟨taken, -, hreads⟩ := Accepts.mediaQuery _ (hd.of_suffix hs) _ _ h
    exact .part rfl hs hreads.kind?_eq h
  block {brace rest} hs _ :=
    have hrest : rest <:+ all := (List.suffix_cons brace rest).trans hs
    .node rfl _ (List.forall_mem_cons.2 ⟨.leaf brace.index, declarations_assembled st hd hrest⟩)

theorem statements_assembled : ∀ t ∈ (statements st s).result, Assembled all t :=
  (Assembled.traversal st hd).statements hs

end

end Stylesheet.Grammar
