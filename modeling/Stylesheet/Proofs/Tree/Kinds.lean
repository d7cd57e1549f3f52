import Stylesheet.Proofs.Tree.Derivation
import Stylesheet.Proofs.Tree.Subtrees

/-!
# Which nodes stand below which

The kinds of nodes that may be the children of a node (`childKinds`), read off its production. A set
of kinds that has the children of its members holds everything below them (`Derived.kinds_below`). The
smallest such set below a kind is `kindsBelow`: a kind that is not in it is nowhere below
(`Derived.nodesBelow_eq_nil`), and one that is in it only by itself is found among the children
(`Derived.nodesBelow_eq_filter`).
-/

namespace Stylesheet

open Computability

namespace Grammar

/-- Rows whose nodes are of some kinds. -/
def KindRows (ok : NodeKind → Bool) (l : Language Tree) : Prop :=
  ∀ row ∈ l, ∀ t ∈ row, ∀ kind, t.kind? = some kind → ok kind = true

namespace KindRows

variable {ok : NodeKind → Bool} {l m : Language Tree}

theorem one : KindRows ok 1 := by
  intro row h t ht
  rw [Language.mem_one] at h
  rw [h] at ht
  contradiction

theorem add (hl : KindRows ok l) (hm : KindRows ok m) : KindRows ok (l + m) :=
  fun row h => h.elim (hl row) (hm row)

theorem mul (hl : KindRows ok l) (hm : KindRows ok m) : KindRows ok (l * m) := by
  intro row h t ht
  obtain ⟨a, ha, b, hb, rfl⟩ := Language.mem_mul.1 h
  rcases List.mem_append.1 ht with ht | ht
  · exact hl a ha t ht
  · exact hm b hb t ht

theorem star (hl : KindRows ok l) : KindRows ok l∗ := by
  intro row h t ht
  obtain ⟨rows, rfl, hrows⟩ := Language.mem_kstar.1 h
  obtain ⟨row, hr, ht⟩ := List.mem_flatten.1 ht
  exact hl row (hrows row hr) t ht

theorem optional (hl : KindRows ok l) : KindRows ok (optional l) := one.add hl

theorem nil : KindRows ok [].prod := one

theorem cons {ls : List (Language Tree)} (h : KindRows ok l) (hs : KindRows ok ls.prod) :
    KindRows ok (l :: ls).prod := by
  rw [List.prod_cons]
  exact h.mul hs

theorem separated (hl : KindRows ok l) (hm : KindRows ok m) : KindRows ok (separated l m) :=
  hl.mul (hm.mul hl).star

theorem nodeIn {kinds : List NodeKind} (h : kinds.all ok = true) : KindRows ok (nodeIn kinds) := by
  intro row hr t ht kind hk
  obtain ⟨kind', hm, place, children, rfl⟩ := hr
  rw [List.mem_singleton.1 ht] at hk
  cases hk
  exact List.all_eq_true.1 h kind hm

theorem nodeWith {kind : NodeKind} (h : ok kind = true) (content : Language Tree) :
    KindRows ok (nodeWith kind content) :=
  fun row hr => nodeIn (List.all_eq_true.2 fun _ hk => List.mem_singleton.1 hk ▸ h) row
    (nodeWith_le kind content row hr)

theorem leafOf (tokens : List Token) (p : TokenKind → Bool) : KindRows ok (leafOf tokens p) := by
  intro row h t ht kind hk
  obtain ⟨i, -, -, -, -, rfl⟩ := h
  rw [List.mem_singleton.1 ht] at hk
  contradiction

theorem mono {ok' : NodeKind → Bool} (h : KindRows ok l)
    (hm : ∀ kind, ok kind = true → ok' kind = true) : KindRows ok' l :=
  fun row hr t ht kind hk => hm kind (h row hr t ht kind hk)

end KindRows

/-! ## Children -/

/-- The kinds of the nodes that may stand directly below a node. -/
def childKinds : NodeKind → List NodeKind
  | .stylesheet => [.namespaceRule, .fontFaceRule, .mediaRule, .unknownAtRule, .rule, .error]
  | .namespaceRule => [.namespacePrefix]
  | .fontFaceRule => [.declarationBlock]
  | .mediaRule => [.mediaQueryList, .rule, .unknownAtRule, .error]
  | .mediaQueryList => [.mediaQuery]
  | .mediaQuery => [.mediaFeature]
  | .mediaFeature => [.value]
  | .rule => [.selectorList, .declarationBlock]
  | .selectorList => [.selector]
  | .selector => [.simpleSelector, .combinator]
  | .simpleSelector => [.namespacePrefix, .elementName, .idSelector, .classSelector,
      .attributeSelector, .pseudoSelector]
  | .declarationBlock => [.declaration, .error]
  | .declaration => [.value]
  | .value => [.term, .functionCall, .namedArgument]
  | .functionCall => [.value]
  | .namedArgument => [.term, .functionCall]
  | .namespacePrefix | .unknownAtRule | .elementName | .idSelector | .classSelector
  | .attributeSelector | .pseudoSelector | .combinator | .term | .error => []

/-- The kinds of the nodes that may stand anywhere below a node. -/
def kindsBelow (kind : NodeKind) : List NodeKind :=
  (fun kinds => (kinds ++ kinds.flatMap childKinds).eraseDups)^[5] (childKinds kind)

theorem childKinds_subset_kindsBelow (kind : NodeKind) :
    ∀ k ∈ childKinds kind, k ∈ kindsBelow kind := by
  cases kind <;> decide

theorem kindsBelow_closed (kind : NodeKind) :
    ∀ k ∈ kindsBelow kind, ∀ k' ∈ childKinds k, k' ∈ kindsBelow kind := by
  cases kind <;> decide

section

variable {tokens : List Token}

theorem kindRows_production (kind : NodeKind) :
    KindRows (childKinds kind).contains (production (leafOf tokens) kind) := by
  have tok {ok : NodeKind → Bool} (p : TokenKind → Bool) : KindRows ok (leafOf tokens p) :=
    .leafOf tokens p
  cases kind with
  | stylesheet => exact KindRows.star (.nodeIn rfl)
  | namespaceRule =>
    exact .cons (tok _) (.cons (KindRows.nodeWith rfl _).optional
      (.cons (tok _) (.cons (tok _).optional .nil)))
  | namespacePrefix => exact (tok _).add (.cons (tok _).optional (.cons (tok _) .nil))
  | fontFaceRule => exact .cons (tok _) (.cons (.nodeIn rfl) .nil)
  | mediaRule =>
    exact .cons (tok _) (.cons (.nodeIn rfl) (.cons (tok _) (.cons (KindRows.nodeIn rfl).star
      (.cons (tok _).optional .nil))))
  | mediaQueryList => exact (KindRows.separated (.nodeIn rfl) (tok _)).optional
  | mediaQuery =>
    have word : KindRows (childKinds .mediaQuery).contains
        [leafOf tokens isQualifier, leafOf tokens isMediaType].prod :=
      .cons (tok _) (.cons (tok _) .nil)
    exact .cons ((word.add (tok _)).add (.nodeIn rfl))
      (.cons (KindRows.cons (tok _) (.cons (.nodeIn rfl) .nil)).star .nil)
  | mediaFeature =>
    exact .cons (tok _) (.cons (tok _) (.cons
      (KindRows.cons (tok _) (.cons (.nodeWith rfl _) .nil)).optional (.cons (tok _) .nil)))
  | unknownAtRule => exact .cons (tok _) (.cons (tok _).star .nil)
  | rule => exact .cons (.nodeIn rfl) (.cons (.nodeIn rfl) .nil)
  | selectorList => exact KindRows.separated (.nodeIn rfl) (tok _)
  | selector => exact KindRows.separated (.nodeIn rfl) (.nodeIn rfl)
  | simpleSelector =>
    have element : KindRows (childKinds .simpleSelector).contains
        [optional (nodeWith .namespacePrefix (barRow (leafOf tokens))), nodeOf .elementName].prod :=
      .cons (KindRows.nodeWith rfl _).optional (.cons (.nodeIn rfl) .nil)
    have conditions : KindRows (childKinds .simpleSelector).contains
        (nodeIn [.idSelector, .classSelector, .attributeSelector, .pseudoSelector]) := .nodeIn rfl
    have parts := KindRows.cons element.optional (.cons conditions.star .nil)
    exact fun row hr => parts row hr.1
  | elementName | idSelector | term => exact tok _
  | combinator => exact tok fun k => isCombinator k || k == .whitespace
  | classSelector => exact .cons (tok _) (.cons (tok _) .nil)
  | attributeSelector =>
    exact .cons (tok _) (.cons (tok _)
      (.cons (KindRows.cons (tok _) (.cons (tok _) .nil)).optional (.cons (tok _) .nil)))
  | pseudoSelector =>
    exact .cons (tok _) (.cons (tok _).optional (.cons ((tok _).add
      (.cons (tok _) (.cons (tok _).star (.cons (tok _) .nil)))) .nil))
  | declarationBlock =>
    exact .cons (tok _) (.cons (KindRows.add (.nodeIn rfl) (tok _)).star
      (.cons (tok _).optional .nil))
  | declaration =>
    exact .cons (tok _) (.cons (tok _) (.cons (.nodeWith rfl _)
      (.cons (tok _).optional (.cons (tok _).optional .nil))))
  | value => exact KindRows.separated (.nodeIn rfl) (tok _).optional
  | functionCall =>
    exact .cons (tok _) (.cons (KindRows.nodeWith rfl _).optional (.cons (tok _) .nil))
  | namedArgument => exact .cons (tok _) (.cons (tok _) (.cons (.nodeIn rfl) .nil))
  | error => exact (tok _).star

/-- The children of a node of one of some kinds that have the children of their members. -/
theorem kindRows_of_closed {ok : NodeKind → Bool}
    (hok : ∀ kind, ok kind = true → (childKinds kind).all ok = true) {kind : NodeKind}
    (h : ok kind = true) : KindRows ok (production (leafOf tokens) kind) :=
  (kindRows_production kind).mono fun k hk =>
    List.all_eq_true.1 (hok kind h) k (List.contains_iff_mem.1 hk)

namespace Derived

theorem subtree {t u : Tree} (h : Derived tokens t) (hu : u ∈ t.subtrees) : Derived tokens u := by
  induction h with
  | leaf index =>
    rw [List.mem_singleton.1 hu]
    exact .leaf index
  | node hrow hs ih =>
    rcases List.mem_cons.1 hu with rfl | hu
    · exact .node hrow hs
    · obtain ⟨c, hc, hu⟩ := Tree.mem_subtreesAmong.1 hu
      exact ih c hc hu

/-- The kind of a child is one that its node may have below it. -/
theorem kind_of_child {t c : Tree} {kind kind' : NodeKind} (h : Derived tokens t)
    (hk : t.kind? = some kind) (hc : c ∈ t.children) (hk' : c.kind? = some kind') :
    kind' ∈ childKinds kind := by
  cases h with
  | leaf => contradiction
  | node hrow hs =>
    cases hk
    exact List.contains_iff_mem.1 (kindRows_production kind _ hrow c hc kind' hk')

theorem of_mem_nodes {t u : Tree} {kind : NodeKind} (h : Derived tokens t)
    (hk : t.kind? = some kind) (hu : u ∈ t.nodes) :
    Derived tokens u ∧ ∃ kind' ∈ childKinds kind, u.kind? = some kind' := by
  obtain ⟨hc, hn⟩ := List.mem_filter.1 hu
  cases u with
  | leaf => contradiction
  | node kind' place children => exact ⟨h.child hc, kind', h.kind_of_child hk hc rfl, rfl⟩

/-- Kinds that have the children of their members hold everything below a node of one of them. -/
theorem kinds_below {ok : NodeKind → Bool}
    (hok : ∀ kind, ok kind = true → (childKinds kind).all ok = true) {t u : Tree}
    (h : Derived tokens t) (ht : ∀ kind, t.kind? = some kind → ok kind = true)
    (hu : u ∈ t.subtrees) : ∀ kind, u.kind? = some kind → ok kind = true := by
  induction h with
  | leaf index =>
    rw [List.mem_singleton.1 hu]
    exact ht
  | @node kind place children hrow hs ih =>
    rcases List.mem_cons.1 hu with rfl | hu
    · exact ht
    · obtain ⟨c, hc, hu⟩ := Tree.mem_subtreesAmong.1 hu
      exact ih c hc (kindRows_of_closed hok (ht kind rfl) children hrow c hc) hu

/-- What stands below a node is of the kinds that may stand there. -/
theorem kind_below {t c u : Tree} {kind kind' : NodeKind} (h : Derived tokens t)
    (hk : t.kind? = some kind) (hc : c ∈ t.children) (hu : u ∈ c.subtrees)
    (hk' : u.kind? = some kind') : kind' ∈ kindsBelow kind := by
  have hok (k : NodeKind) (hm : (kindsBelow kind).contains k = true) :
      (childKinds k).all (kindsBelow kind).contains = true :=
    List.all_eq_true.2 fun k' hk' =>
      List.contains_iff_mem.2 (kindsBelow_closed kind k (List.contains_iff_mem.1 hm) k' hk')
  refine List.contains_iff_mem.1 ((h.child hc).kinds_below hok (fun k hkc => ?_) hu kind' hk')
  exact List.contains_iff_mem.2
    (childKinds_subset_kindsBelow kind k (h.kind_of_child hk hc hkc))

/-- The same, with the node itself. -/
theorem kind_of_subtree {t u : Tree} {kind kind' : NodeKind} (h : Derived tokens t)
    (hk : t.kind? = some kind) (hu : u ∈ t.subtrees) (hk' : u.kind? = some kind') :
    kind' ∈ kind :: kindsBelow kind := by
  cases t with
  | leaf => contradiction
  | node k place children =>
    rcases List.mem_cons.1 hu with rfl | hu
    · cases hk
      cases hk'
      exact List.mem_cons_self
    · obtain ⟨c, hc, hu⟩ := Tree.mem_subtreesAmong.1 hu
      exact List.mem_cons_of_mem kind (h.kind_below hk hc hu hk')

section

variable {t : Tree} {kind : NodeKind} {kinds : List NodeKind}

theorem nodesBelow_child_eq_nil (h : Derived tokens t) (hk : t.kind? = some kind)
    (hb : ∀ k ∈ kindsBelow kind, k ∉ kinds) : ∀ c ∈ t.children, c.nodesBelow kinds = [] := by
  intro c hc
  refine List.filter_eq_nil_iff.2 fun u hu ho => ?_
  obtain ⟨k, hm, hku⟩ := Tree.isOf_iff.1 ho
  exact hb k (h.kind_below hk hc hu hku) hm

/-- Kinds that may not stand below a node. -/
theorem nodesBelow_eq_nil (h : Derived tokens t) (hk : t.kind? = some kind) (hn : kind ∉ kinds)
    (hb : ∀ k ∈ kindsBelow kind, k ∉ kinds) : t.nodesBelow kinds = [] := by
  have hc := h.nodesBelow_child_eq_nil hk hb
  cases t with
  | leaf => contradiction
  | node kind' place children =>
    cases hk
    rw [Tree.nodesBelow_node hn]
    exact List.flatMap_eq_nil_iff.2 hc

/-- Kinds that stand below a node only as its children. -/
theorem nodesBelow_eq_filter (h : Derived tokens t) (hk : t.kind? = some kind) (hn : kind ∉ kinds)
    (hb : ∀ k ∈ childKinds kind, ∀ k' ∈ kindsBelow k, k' ∉ kinds) :
    t.nodesBelow kinds = t.children.filter (Tree.isOf kinds) := by
  have hchild (c : Tree) (hc : c ∈ t.children) :
      c.nodesBelow kinds = if c.isOf kinds then [c] else [] := by
    cases c with
    | leaf => rfl
    | node k place children =>
      have hbelow := hb k (h.kind_of_child hk hc rfl)
      have hnil := List.flatMap_eq_nil_iff.2 ((h.child hc).nodesBelow_child_eq_nil rfl hbelow)
      by_cases hm : k ∈ kinds
      · rw [if_pos (Tree.isOf_iff.2 ⟨k, hm, rfl⟩)]
        exact Tree.nodesBelow_self hm hnil
      · rw [if_neg (by simpa [Tree.isOf, Tree.kind?] using hm), Tree.nodesBelow_node hm]
        exact hnil
  cases t with
  | leaf => contradiction
  | node kind' place children =>
    cases hk
    rw [Tree.nodesBelow_node hn]
    exact Tree.flatMap_nodesBelow hchild

/-- The same for a single kind. -/
theorem nodesBelow_eq_nodesOf {kind' : NodeKind} (h : Derived tokens t) (hk : t.kind? = some kind)
    (hn : kind ≠ kind') (hb : ∀ k ∈ childKinds kind, kind' ∉ kindsBelow k) :
    t.nodesBelow [kind'] = t.nodesOf kind' := by
  rw [h.nodesBelow_eq_filter hk (fun hm => hn (List.mem_singleton.1 hm)), Tree.children_filter_isOf]
  intro k hk k' hk' hm
  rw [List.mem_singleton.1 hm] at hk'
  exact hb k hk hk'

end

end Derived

end

end Grammar

end Stylesheet
