import Mathlib.Data.List.Forall2
import Stylesheet.Parse
import Stylesheet.Proofs.Reading.Whole
import Stylesheet.Proofs.Tree.Covering

/-!
# Documents are complete

Nothing that the parser accepted is dropped on the way into the document, whatever the tokens are. Each
style rule of the tree is a rule of the document, each selector, compound and condition in it is a part
of that rule, each declaration and each query too, all of them in the order of the tree
(`Reading.ReadsRule`); and what is reported about colors and at-rules is reported once for each place
in the tree (`buildDocument_complete`).
-/

namespace Stylesheet

open Grammar Stylesheet.Tree

theorem forall₂_filterMap {α β : Type} {f : α → Option β} {R : α → β → Prop} {l : List α}
    (h : ∀ a ∈ l, ∃ b, f a = some b ∧ R a b) : List.Forall₂ R l (l.filterMap f) := by
  induction l with
  | nil => exact .nil
  | cons a l ih =>
    obtain ⟨⟨b, hb, hr⟩, hl⟩ := List.forall_mem_cons.1 h
    rw [List.filterMap_cons_some hb]
    exact .cons hr (ih hl)

theorem forall₂_map {α β : Type} {f : α → β} {R : α → β → Prop} {l : List α}
    (h : ∀ a ∈ l, R a (f a)) : List.Forall₂ R l (l.map f) :=
  List.forall₂_map_right_iff.2 (List.forall₂_same.2 h)

/-- What follows on something that is read depends only on what it was read as. -/
theorem Noted.bind_of_result {α β : Type} {x : Noted α} {f g : α → Noted β}
    (h : f x.result = g x.result) : x >>= f = x >>= g := by
  show (⟨_, _⟩ : Noted β) = ⟨_, _⟩
  rw [h]

/-! ## What a tree says -/

namespace Tree

/-- The style rules of a statement, each with the media queries around it. -/
def statementRules (t : Tree) : List (Tree × List Tree) :=
  match t.kind? with
  | some .rule => [(t, [])]
  | some .mediaRule => (t.nodesOf .rule).map fun u => (u, t.nodesBelow [.mediaQuery])
  | _ => []

/-- The style rules of a stylesheet in order. -/
def styleRules (t : Tree) : List (Tree × List Tree) := t.nodes.flatMap statementRules

end Tree

namespace Reading

/-- A compound is what its node says: every node that stands for a condition is a condition of it. -/
structure ReadsCompound (r : Reading) (t : Tree) (c : Compound) : Prop where
  nsPrefix : c.nsPrefix = (t.child? .namespacePrefix).bind r.prefixOf?
  element : c.element = (t.child? .elementName).bind r.elementOf?
  conditions : List.Forall₂ (fun u k => r.conditionOf? u = some k) (t.nodesBelow conditionKinds)
    c.conditions

/-- A selector is what its node says, compound by compound. -/
structure ReadsSelector (r : Reading) (t : Tree) (s : Selector) : Prop where
  compounds : List.Forall₂ r.ReadsCompound (t.nodesBelow [.simpleSelector]) s.compounds
  combinators : s.combinators = (t.nodesBelow [.combinator]).map r.combinator
  span : s.span = r.spanOf t

/-- A media query is what its node says, feature by feature. -/
structure ReadsQuery (r : Reading) (t : Tree) (q : MediaQuery) : Prop where
  query : (r.mediaQuery t).result = q
  features : List.Forall₂ (fun u f => (r.mediaFeature u).result = some f)
    (t.nodesBelow [.mediaFeature]) q.features

/-- A style rule is what its node says and the queries around it. -/
structure ReadsRule (r : Reading) (t : Tree × List Tree) (x : Rule) : Prop where
  selectors : List.Forall₂ r.ReadsSelector (t.1.nodesBelow [.selector]) x.selectors
  declarations : List.Forall₂ (fun u d => (r.declaration u).result = some d)
    (t.1.nodesBelow [.declaration]) x.declarations
  media : List.Forall₂ r.ReadsQuery t.2 x.media
  span : x.span = r.spanOf t.1

variable {r : Reading}

/-! ## Selectors -/

theorem conditionOf?_eq_none {t : Tree} (h : t.isOf conditionKinds = false) :
    r.conditionOf? t = none := by
  unfold conditionOf?
  split
  case h_5 => rfl
  all_goals
    rename_i hk
    rw [isOf, hk] at h
    contradiction

theorem compound_reads {t : Tree} (h : Derived r.tokens t) (hk : t.kind? = some .simpleSelector)
    (options : Options) (known : List Namespace) :
    r.ReadsCompound t (r.compound options known t).result := by
  refine ⟨rfl, rfl, ?_⟩
  have hnodes : t.nodes.filterMap r.conditionOf? =
      (t.children.filter (isOf conditionKinds)).filterMap r.conditionOf? := by
    rw [nodes, List.filterMap_filter, List.filterMap_filter]
    refine List.filterMap_congr fun u _ => ?_
    cases u with
    | leaf => rfl
    | node kind place children =>
      show r.conditionOf? (.node kind place children) = _
      split
      · rfl
      · rename_i hno
        exact conditionOf?_eq_none (Bool.eq_false_of_not_eq_true hno)
  show List.Forall₂ _ _ (t.nodes.filterMap r.conditionOf?)
  rw [hnodes, h.nodesBelow_eq_filter hk (by decide) (by decide)]
  refine forall₂_filterMap fun u hu => ?_
  obtain ⟨hm, ho⟩ := List.mem_filter.1 hu
  obtain ⟨kind, hc, huk⟩ := isOf_iff.1 ho
  obtain ⟨k, hk⟩ := conditionOf?_some (h.child hm) huk hc
  exact ⟨k, hk, hk⟩

theorem selector_reads {t : Tree} (h : Derived r.tokens t) (hk : t.kind? = some .selector)
    (options : Options) (known : List Namespace) :
    ∃ s, (r.selector options known t).result = some s ∧ r.ReadsSelector t s := by
  refine ⟨_, selector_some h hk options known, ?_, ?_, rfl⟩
  · rw [h.nodesBelow_eq_nodesOf hk (by decide) (by decide)]
    refine forall₂_map fun u hu => ?_
    obtain ⟨hm, huk⟩ := List.mem_filter.1 hu
    exact compound_reads (h.child hm) (eq_of_beq huk) options known
  · rw [h.nodesBelow_eq_nodesOf hk (by decide) (by decide)]

theorem selectors_reads {t : Tree} (h : Derived r.tokens t) (hk : t.kind? = some .selectorList)
    (options : Options) (known : List Namespace) :
    List.Forall₂ r.ReadsSelector (t.nodesBelow [.selector])
      (r.selectors options known t).result := by
  rw [h.nodesBelow_eq_nodesOf hk (by decide) (by decide), selectors,
    Noted.collect?_result]
  refine forall₂_filterMap fun u hu => ?_
  obtain ⟨hm, huk⟩ := List.mem_filter.1 hu
  exact selector_reads (h.child hm) (eq_of_beq huk) options known

/-! ## Declarations and queries -/

/-- Everything that is collected of some trees is found, with its problems. -/
theorem collect?_whole {β : Type} {f : Tree → Noted (Option β)} {ts : List Tree}
    (h : ∀ t ∈ ts, r.Whole t (f t)) :
    List.Forall₂ (fun t b => (f t).result = some b) ts (Noted.collect? f ts).result ∧
      r.Raises ts (Noted.collect? f ts).problems := by
  refine ⟨?_, ?_⟩
  · rw [Noted.collect?_result]
    refine forall₂_filterMap fun t ht => ?_
    obtain ⟨b, hb⟩ := (h t ht).found
    exact ⟨b, hb, hb⟩
  · rw [Noted.collect?, Noted.bind_problems, Noted.pure_problems, List.append_nil]
    exact .collect fun t ht => (h t ht).raises

/-- The nodes of a kind below a node, where everything else below it is quiet. -/
theorem Raises.ofNodesOf {t : Tree} {kind kind' : NodeKind} {ps : List Problem}
    (h : Derived r.tokens t) (hk : t.kind? = some kind)
    (hm : (kind == .term || kind == .unknownAtRule) = false)
    (hq : ∀ k ∈ childKinds kind, k = kind' ∨ isQuiet k = true)
    (hr : r.Raises (t.nodesOf kind') ps) : r.Raises [t] ps := by
  cases t with
  | leaf => contradiction
  | node k place children =>
    cases hk
    refine Raises.node (.ofFilter hr fun u hu hn => .quiet (h.child hu) fun k' hk' => ?_) kind place hm
    refine (hq k' (h.kind_of_child rfl hu hk')).resolve_left ?_
    rintro rfl
    exact beq_eq_false_iff_ne.1 hn hk'

theorem declarations_reads {t : Tree} (h : Derived r.tokens t)
    (hk : t.kind? = some .declarationBlock) :
    List.Forall₂ (fun u d => (r.declaration u).result = some d) (t.nodesBelow [.declaration])
        (r.declarations t).result ∧
      r.Raises [t] (r.declarations t).problems := by
  have hw : ∀ u ∈ t.nodesOf .declaration, r.Whole u (r.declaration u) := by
    intro u hu
    obtain ⟨hm, huk⟩ := List.mem_filter.1 hu
    exact declaration_whole (h.child hm) (eq_of_beq huk)
  obtain ⟨hresult, hraises⟩ := collect?_whole hw
  rw [h.nodesBelow_eq_nodesOf hk (by decide) (by decide)]
  exact ⟨hresult, hraises.ofNodesOf h hk rfl (by decide)⟩

theorem mediaQuery_reads {t : Tree} (h : Derived r.tokens t) (hk : t.kind? = some .mediaQuery) :
    r.ReadsQuery t (r.mediaQuery t).result ∧ r.Raises [t] (r.mediaQuery t).problems := by
  have hw : ∀ u ∈ t.nodesOf .mediaFeature, r.Whole u (r.mediaFeature u) := by
    intro u hu
    obtain ⟨hm, huk⟩ := List.mem_filter.1 hu
    exact mediaFeature_whole (h.child hm) (eq_of_beq huk)
  obtain ⟨hresult, hraises⟩ := collect?_whole hw
  refine ⟨⟨rfl, ?_⟩, ?_⟩
  · rw [h.nodesBelow_eq_nodesOf hk (by decide) (by decide)]
    exact hresult
  · rw [mediaQuery, Noted.bind_problems, Noted.pure_problems, List.append_nil]
    exact hraises.ofNodesOf h hk rfl (by decide)

/-! ## Rules -/

theorem selectors_raises {t : Tree} (h : Derived r.tokens t) (hk : t.kind? = some .selectorList)
    (options : Options) (known : List Namespace) :
    r.Raises [t] (r.selectors options known t).problems := by
  have hquiet : r.Raises [t] [] := .quiet h fun kind e => by
    rw [hk] at e
    cases e
    decide
  exact hquiet.append (.ofOnly (r.only_selectors options known t).kind_mem (by decide) (by decide))

/-- There is a selector in a list of selectors. -/
theorem selectors_ne_nil {t : Tree} (h : Derived r.tokens t) (hk : t.kind? = some .selectorList)
    (options : Options) (known : List Namespace) :
    (r.selectors options known t).result ≠ [] := by
  obtain ⟨place, children, rfl, hp, hs⟩ := h.row hk
  obtain ⟨front, hf, rest, -, rfl⟩ := Language.mem_mul.1 hp
  obtain ⟨kind, hkind, p, ts, rfl⟩ := hf
  cases List.mem_singleton.1 hkind
  have hd : Derived r.tokens (.node .selector p ts) := hs _ (by simp)
  rw [selectors, Noted.collect?_result]
  refine List.ne_nil_of_mem (List.mem_filterMap.2 ⟨.node .selector p ts, ?_,
    selector_some hd rfl options known⟩)
  exact List.mem_filter.2 ⟨by simp [Tree.children], rfl⟩

/-- A style rule has a list of selectors and a block, and always becomes a rule. -/
theorem rule_eq {t : Tree} (h : Derived r.tokens t) (hk : t.kind? = some .rule) (options : Options) :
    ∃ place list block, t = .node .rule place [list, block] ∧ Derived r.tokens list ∧
      list.kind? = some .selectorList ∧ Derived r.tokens block ∧
      block.kind? = some .declarationBlock ∧ ∀ known media, r.rule options known media t = do
        let selectors ← r.selectors options known list
        let declarations ← r.declarations block
        return some ⟨selectors, declarations, media, r.spanOf t⟩ := by
  obtain ⟨place, children, rfl, hp, hs⟩ := h.row hk
  obtain ⟨p, list, p', block, rfl⟩ := mem_rule hp
  have hl : Derived r.tokens (.node .selectorList p list) := hs _ (by simp)
  refine ⟨place, _, _, rfl, hl, rfl, hs _ (by simp), rfl, fun known media => ?_⟩
  have hne : ¬ (r.selectors options known (.node .selectorList p list)).result.isEmpty = true := by
    rw [List.isEmpty_iff]
    exact selectors_ne_nil hl rfl options known
  exact Noted.bind_of_result (if_neg hne)

/-- A style rule of the tree is one of the document. -/
theorem rule_reads {t : Tree} (h : Derived r.tokens t) (hk : t.kind? = some .rule)
    (options : Options) (known : List Namespace) {queries : List Tree} {media : List MediaQuery}
    (hm : List.Forall₂ r.ReadsQuery queries media) :
    (∃ x, (r.rule options known media t).result = some x ∧ r.ReadsRule (t, queries) x) ∧
      r.Raises [t] (r.rule options known media t).problems := by
  obtain ⟨place, l, b, rfl, hl, hlk, hb, hbk, hread⟩ := rule_eq h hk options
  obtain ⟨hdeclarations, hraises⟩ := declarations_reads hb hbk
  have hbelow (kind : NodeKind) (hk : kind ≠ .rule) :
      (Tree.node .rule place [l, b]).nodesBelow [kind] =
        l.nodesBelow [kind] ++ b.nodesBelow [kind] := by
    rw [nodesBelow_node (by simpa using hk.symm), List.flatMap_cons, List.flatMap_singleton]
  rw [hread]
  refine ⟨⟨_, rfl, ?_, ?_, hm, rfl⟩, ?_⟩
  · rw [hbelow _ (by decide), hb.nodesBelow_eq_nil hbk (by decide) (by decide),
      List.append_nil]
    exact selectors_reads hl hlk options known
  · rw [hbelow _ (by decide), hl.nodesBelow_eq_nil hlk (by decide) (by decide)]
    exact hdeclarations
  · rw [Noted.bind_problems, Noted.bind_problems, Noted.pure_problems, List.append_nil]
    exact ((selectors_raises hl hlk options known).append hraises).node .rule place rfl

/-- An at-rule that says nothing is reported. -/
theorem invalidAtRule_raises {t : Tree} (h : Derived r.tokens t)
    (hk : t.kind? = some .unknownAtRule) : r.Raises [t] [r.invalidAtRule t] := by
  obtain ⟨place, children, rfl, hp, -⟩ := h.row hk
  obtain ⟨keyword, rest, hw, hr, rfl⟩ := mem_prod_cons hp
  obtain ⟨i, rfl⟩ := leaf_of_leafOf hw
  obtain ⟨is, rfl⟩ := leaves_of_star (mem_prod_last hr) fun _ => leaf_of_leafOf
  have hleaves : r.Raises ([.leaf i] ++ is.map Tree.leaf) [] := (Raises.leaf i).append (.leaves is)
  refine ⟨?_, ?_⟩
  · rw [count_node, ← hleaves.colors]
    rfl
  · rw [count_node, ← hleaves.atRules]
    rfl

/-- The style rules among nodes, with the same queries around them all. -/
theorem rules_reads {ts : List Tree} (h : ∀ t ∈ ts, Derived r.tokens t) (options : Options)
    (known : List Namespace) {queries : List Tree} {media : List MediaQuery}
    (hm : List.Forall₂ r.ReadsQuery queries media) :
    List.Forall₂ r.ReadsRule ((ts.filter (isOf [.rule])).map fun t => (t, queries))
        (r.rules options known media ts).result ∧
      r.Raises (ts.filter (isOf [.rule, .unknownAtRule]))
        (r.rules options known media ts).problems := by
  induction ts with
  | nil => exact ⟨.nil, .nil⟩
  | cons t ts ih =>
    obtain ⟨ht, hts⟩ := List.forall_mem_cons.1 h
    obtain ⟨hresult, hraises⟩ := ih hts
    rw [rules]
    split
    · rename_i hk
      obtain ⟨⟨x, hx, hreads⟩, hproblems⟩ := rule_reads ht hk options known hm
      rw [List.filter_cons_of_pos (isOf_iff.2 ⟨_, by simp, hk⟩),
        List.filter_cons_of_pos (isOf_iff.2 ⟨_, by simp, hk⟩), Noted.bind_result,
        Noted.bind_result, hx, Noted.bind_problems, Noted.bind_problems, Noted.pure_problems,
        List.append_nil]
      exact ⟨.cons hreads hresult, hproblems.append hraises⟩
    · rename_i hk
      rw [List.filter_cons_of_neg (by simp [isOf, hk]),
        List.filter_cons_of_pos (isOf_iff.2 ⟨_, by simp, hk⟩), Noted.bind_problems]
      exact ⟨hresult, (invalidAtRule_raises ht hk).append hraises⟩
    · rename_i hr hu
      rw [List.filter_cons_of_neg (by simpa [isOf_iff] using hr),
        List.filter_cons_of_neg (by simpa [isOf_iff] using And.intro hr hu)]
      exact ⟨hresult, hraises⟩

/-! ## Media rules -/

theorem mediaQueries_reads {t list : Tree} (h : Derived r.tokens list)
    (hk : list.kind? = some .mediaQueryList) (hc : t.child? .mediaQueryList = some list) :
    List.Forall₂ r.ReadsQuery (list.nodesBelow [.mediaQuery]) (r.mediaQueries t).result ∧
      r.Raises [list] (r.mediaQueries t).problems := by
  have hq : ∀ u ∈ list.nodesOf .mediaQuery,
      r.ReadsQuery u (r.mediaQuery u).result ∧ r.Raises [u] (r.mediaQuery u).problems := by
    intro u hu
    obtain ⟨hm, huk⟩ := List.mem_filter.1 hu
    exact mediaQuery_reads (h.child hm) (eq_of_beq huk)
  rw [mediaQueries, hc, h.nodesBelow_eq_nodesOf hk (by decide) (by decide)]
  dsimp only
  refine ⟨?_, Raises.ofNodesOf h hk rfl (by decide) (.collect fun u hu => (hq u hu).2)⟩
  rw [Noted.collect_result]
  exact forall₂_map fun u hu => (hq u hu).1

section

/-- What may stand in the block of a media rule. -/
def blockKinds : List NodeKind := [.rule, .unknownAtRule, .error]

variable {body : List Tree} (hd : ∀ t ∈ body, Derived r.tokens t)
  (hk : ∀ t ∈ body, ∃ kind ∈ blockKinds, t.kind? = some kind)
include hd hk

/-- There are no media queries in a block. -/
theorem nodesBelow_block : body.flatMap (nodesBelow [.mediaQuery]) = [] := by
  have hkinds : ∀ k ∈ blockKinds, k ∉ [NodeKind.mediaQuery] ∧
      ∀ k' ∈ kindsBelow k, k' ∉ [NodeKind.mediaQuery] := by decide
  refine List.flatMap_eq_nil_iff.2 fun t ht => ?_
  obtain ⟨kind, hm, htk⟩ := hk t ht
  obtain ⟨hself, hbelow⟩ := hkinds kind hm
  exact (hd t ht).nodesBelow_eq_nil htk hself hbelow

/-- Beside style rules and at-rules, what stands in a block is quiet. -/
theorem Raises.block {ps : List Problem}
    (h : r.Raises (body.filter (isOf [.rule, .unknownAtRule])) ps) : r.Raises body ps := by
  have hkinds : ∀ k ∈ blockKinds, k ∈ [NodeKind.rule, .unknownAtRule] ∨ isQuiet k = true := by
    decide
  refine .ofFilter h fun t ht hn => .quiet (hd t ht) fun kind htk => ?_
  obtain ⟨kind', hm, htk'⟩ := hk t ht
  obtain rfl : kind = kind' := Option.some.inj (htk.symm.trans htk')
  refine (hkinds kind hm).resolve_left fun hrule => ?_
  rw [isOf_iff.2 ⟨kind, hrule, htk⟩] at hn
  contradiction

end

theorem mediaRule_reads {t : Tree} (h : Derived r.tokens t) (hk : t.kind? = some .mediaRule)
    (options : Options) (known : List Namespace) :
    List.Forall₂ r.ReadsRule t.statementRules (r.mediaRule options known t).result ∧
      r.Raises [t] (r.mediaRule options known t).problems := by
  obtain ⟨place, children, rfl, hp, hs⟩ := h.row hk
  obtain ⟨i, p, list, brace, body, is, rfl, hbody⟩ := mem_mediaRule hp
  generalize hlist : Tree.node .mediaQueryList p list = l at hs
  generalize ht : Tree.node .mediaRule place (.leaf i :: l :: .leaf brace ::
    (body ++ is.map Tree.leaf)) = t
  have hl : Derived r.tokens l := hs _ (by simp)
  have hlk : l.kind? = some .mediaQueryList := by rw [← hlist]; rfl
  have hc : t.child? .mediaQueryList = some l := by rw [← ht, ← hlist]; rfl
  obtain ⟨hqueries, hraises⟩ := mediaQueries_reads hl hlk hc
  have hb (u : Tree) (hu : u ∈ body) : Derived r.tokens u := hs _ (by simp [hu])
  have hn (u : Tree) (hu : u ∈ t.nodes) : Derived r.tokens u := by
    rw [← ht] at hu
    exact hs u (List.mem_filter.1 hu).1
  obtain ⟨hresult, hproblems⟩ := rules_reads hn options known hqueries
  -- the queries stand in front of the block, and the rules in it
  have hbelow : t.nodesBelow [.mediaQuery] = l.nodesBelow [.mediaQuery] := by
    rw [← ht, nodesBelow_node (by decide)]
    simp [nodesBelow_leaf, nodesBelow_block hb hbody]
  have hblock : t.nodes.filter (isOf [.rule, .unknownAtRule]) =
      body.filter (isOf [.rule, .unknownAtRule]) := by
    rw [nodes_filter_isOf, ← ht, ← hlist]
    simp [Tree.children, isOf, Tree.kind?]
  rw [hblock] at hproblems
  rw [nodes_filter_isOf, children_filter_isOf, ← hbelow] at hresult
  refine ⟨?_, ?_⟩
  · rw [statementRules, show t.kind? = some .mediaRule by rw [← ht]; rfl]
    exact hresult
  · have hall : r.Raises [.node .mediaRule place (.leaf i :: l :: .leaf brace ::
        (body ++ is.map Tree.leaf))] _ :=
      ((Raises.leaf i).append (hraises.append ((Raises.leaf brace).append
        ((Raises.block hb hbody hproblems).appendQuiet (.leaves is))))).node .mediaRule place rfl
    rwa [ht] at hall

/-! ## Statements -/

theorem fontFace_raises {t : Tree} (h : Derived r.tokens t) (hk : t.kind? = some .fontFaceRule) :
    r.Raises [t] (r.fontFace t).problems := by
  obtain ⟨place, children, rfl, hp, hs⟩ := h.row hk
  obtain ⟨i, p, block, rfl⟩ := mem_fontFaceRule hp
  have hb : Derived r.tokens (.node .declarationBlock p block) := hs _ (by simp)
  obtain ⟨-, hraises⟩ := declarations_reads hb rfl
  have hread : r.fontFace (.node .fontFaceRule place [.leaf i, .node .declarationBlock p block]) =
      do
        let declarations ← r.declarations (.node .declarationBlock p block)
        return ⟨← r.descriptors [] declarations,
          r.spanOf (.node .fontFaceRule place [.leaf i, .node .declarationBlock p block])⟩ := rfl
  rw [hread, Noted.bind_problems, Noted.bind_problems, Noted.pure_problems, List.append_nil]
  have hdescriptors := Raises.ofOnly (r := r)
    (r.only_descriptors [] (r.declarations (.node .declarationBlock p block)).result).kind_mem
    (by decide) (by decide)
  exact ((Raises.leaf i).append (hraises.append hdescriptors)).node .fontFaceRule place rfl

theorem namespaceRule_parts (r : Reading) (known : List Namespace) (t : Tree) :
    (r.namespaceRule known t).rules = [] ∧ (r.namespaceRule known t).fontFaces = [] := by
  unfold namespaceRule
  split
  · exact ⟨rfl, rfl⟩
  · dsimp only
    split
    · exact ⟨rfl, rfl⟩
    · exact ⟨rfl, rfl⟩

/-- A statement adds its style rules and its font face, and raises what is in it. -/
theorem statement_reads {t : Tree} (h : Derived r.tokens t) {kind : NodeKind}
    (hk : t.kind? = some kind) (hs : kind ∈ childKinds .stylesheet) (options : Options)
    (known : List Namespace) :
    List.Forall₂ r.ReadsRule t.statementRules (r.statement options known t).rules ∧
      (r.statement options known t).fontFaces =
        ([t].filter (isOf [.fontFaceRule])).map (fun u => (r.fontFace u).result) ∧
      r.Raises [t] (r.statement options known t).problems := by
  have hquiet (hq : isQuiet kind = true) : r.Raises [t] [] := .quiet h fun k e => by
    rw [hk] at e
    rw [← Option.some.inj e]
    exact hq
  have hface (hn : kind ≠ .fontFaceRule) : [t].filter (isOf [.fontFaceRule]) = [] :=
    List.filter_cons_of_neg (by simp [isOf, hk, hn])
  obtain ⟨hrules, hraises⟩ := rules_reads (List.forall_mem_singleton.2 h) options known .nil
  simp only [childKinds, List.mem_cons, List.not_mem_nil, or_false] at hs
  rw [statementRules, statement, hk]
  rcases hs with rfl | rfl | rfl | rfl | rfl | rfl
  · obtain ⟨hn, hf⟩ := r.namespaceRule_parts known t
    dsimp only
    rw [hn, hf, hface (by decide)]
    exact ⟨.nil, rfl, (hquiet (by decide)).append
      (.ofOnly (r.only_namespaceRule known t).kind_mem (by decide) (by decide))⟩
  · refine ⟨.nil, ?_, ?_⟩
    · rw [List.filter_cons_of_pos (isOf_iff.2 ⟨_, by simp, hk⟩)]
      rfl
    · rw [Draft.problems_ofProblems rfl]
      exact fontFace_raises h hk
  · obtain ⟨hresult, hproblems⟩ := mediaRule_reads h hk options known
    rw [statementRules, hk] at hresult
    refine ⟨hresult, by rw [hface (by decide)]; rfl, ?_⟩
    rw [Draft.problems_ofProblems rfl]
    exact hproblems
  · rw [List.filter_cons_of_neg (by simp [isOf, hk])] at hrules
    rw [List.filter_cons_of_pos (isOf_iff.2 ⟨_, by simp, hk⟩)] at hraises
    refine ⟨hrules, by rw [hface (by decide)]; rfl, ?_⟩
    rw [Draft.problems_ofProblems rfl]
    exact hraises
  · rw [List.filter_cons_of_pos (isOf_iff.2 ⟨_, by simp, hk⟩)] at hrules hraises
    refine ⟨hrules, by rw [hface (by decide)]; rfl, ?_⟩
    rw [Draft.problems_ofProblems rfl]
    exact hraises
  · exact ⟨.nil, by rw [hface (by decide)]; rfl, hquiet (by decide)⟩

theorem statements_reads {ts : List Tree} (h : ∀ t ∈ ts, Derived r.tokens t)
    (hs : ∀ t ∈ ts, ∃ kind ∈ childKinds .stylesheet, t.kind? = some kind) (options : Options)
    (known : List Namespace) :
    List.Forall₂ r.ReadsRule (ts.flatMap statementRules) (r.statements options known ts).rules ∧
      (r.statements options known ts).fontFaces =
        (ts.filter (isOf [.fontFaceRule])).map (fun u => (r.fontFace u).result) ∧
      r.Raises ts (r.statements options known ts).problems := by
  induction ts generalizing known with
  | nil => exact ⟨.nil, rfl, .nil⟩
  | cons t ts ih =>
    obtain ⟨ht, hts⟩ := List.forall_mem_cons.1 h
    obtain ⟨⟨kind, hkm, hk⟩, hks⟩ := List.forall_mem_cons.1 hs
    obtain ⟨hrules, hfaces, hraises⟩ := statement_reads ht hk hkm options known
    obtain ⟨hrules', hfaces', hraises'⟩ := ih hts hks (known ++ (r.statement options known t).namespaces)
    rw [statements]
    refine ⟨List.rel_append hrules hrules', ?_, ?_⟩
    · show (r.statement options known t).fontFaces ++ _ = _
      rw [hfaces, hfaces', ← List.map_append, ← List.filter_append]
      rfl
    · rw [Draft.problems_append]
      exact hraises.append hraises'

end Reading

/-- What the rules and the font faces of a document are read from, and what is reported of its tree. -/
theorem buildDocument_reads (source : String) (tokens : List Token) (options : Options) :
    let tree := (parseTokens source tokens).tree
    let r : Reading := ⟨source, tokens⟩
    let b := buildDocument source tokens tree options
    List.Forall₂ r.ReadsRule tree.styleRules b.document.rules ∧
      b.document.fontFaces = (tree.nodesBelow [.fontFaceRule]).map (fun t => (r.fontFace t).result) ∧
      r.Raises [tree] b.problems := by
  intro tree r b
  have hk : tree.kind? = some .stylesheet := rfl
  have hd : Derived tokens tree := derived_parseTokens source tokens
  have hnodes (t : Tree) (ht : t ∈ tree.nodes) : t ∈ tree.children ∧ t.isNode = true :=
    List.mem_filter.1 ht
  have hkinds : ∀ t ∈ tree.nodes, ∃ kind ∈ childKinds .stylesheet, t.kind? = some kind := by
    intro t ht
    cases t with
    | leaf => cases (hnodes _ ht).2
    | node kind place children => exact ⟨kind, hd.kind_of_child hk (hnodes _ ht).1 rfl, rfl⟩
  obtain ⟨hrules, hfaces, hraises⟩ := Reading.statements_reads (r := r)
    (fun t ht => hd.child (hnodes t ht).1) hkinds options []
  refine ⟨hrules, ?_, hraises.ofNodes hk rfl⟩
  rw [hd.nodesBelow_eq_nodesOf hk (by decide) (by decide), ← children_filter_isOf, ← nodes_filter_isOf]
  exact hfaces

/-- The document holds everything that the parser accepted, whatever the tokens are. Its rules are the
    style rules of the tree, in the order in which they stand directly below the stylesheet or in the
    block of a media rule, each with all the selectors, compounds, conditions and declarations below it
    and with the queries and features of the media rule around it. Its font faces are those of the tree.
    The at-rules that are reported are as many as the tree has, and so are the colors that are none. -/
theorem buildDocument_complete (source : String) (tokens : List Token) (options : Options) :
    let tree := (parseTokens source tokens).tree
    let r : Reading := ⟨source, tokens⟩
    let b := buildDocument source tokens tree options
    List.Forall₂ r.ReadsRule tree.styleRules b.document.rules ∧
      b.document.fontFaces = (tree.nodesBelow [.fontFaceRule]).map (fun t => (r.fontFace t).result) ∧
      b.problems.countP (·.kind == .invalidAtRule) = Tree.count isUnknownAtRule [tree] ∧
      b.problems.countP (·.kind == .invalidColor) = Tree.count (isStrayHash tokens) [tree] := by
  intro tree r b
  obtain ⟨hrules, hfaces, hraises⟩ := buildDocument_reads source tokens options
  exact ⟨hrules, hfaces, hraises.atRules, hraises.colors⟩

end Stylesheet
