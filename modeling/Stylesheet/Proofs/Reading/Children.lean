import Stylesheet.Proofs.Tree.Leaves
import Stylesheet.Proofs.Tree.Derivation
import Stylesheet.Proofs.Grammar.Selector
import Stylesheet.Reading.Document

/-!
# The children of a node

What the row of children looks like that a production allows, with the tokens in it as the reading of
the node finds them: a function in front of its arguments, a colon in front of a value. One lemma for
each production that is read by more than the kinds of its children.
-/

namespace Stylesheet

open Computability Grammar Stylesheet.Tree

namespace Grammar

variable {tokens : List Token} {form : Language Tree} {forms : List (Language Tree)}
  {row : List Tree}

theorem mem_prod_cons (h : row ∈ (form :: forms).prod) :
    ∃ front behind, front ∈ form ∧ behind ∈ forms.prod ∧ row = front ++ behind := by
  rw [List.prod_cons] at h
  obtain ⟨front, hf, behind, hb, rfl⟩ := Language.mem_mul.1 h
  exact ⟨front, behind, hf, hb, rfl⟩

theorem mem_prod_last (h : row ∈ [form].prod) : row ∈ form := by
  rwa [List.prod_cons, List.prod_nil, mul_one] at h

/-- Tokens that belong to no node. -/
theorem leaves_of_star {form : Language Tree} (h : row ∈ form∗)
    (hf : ∀ row ∈ form, ∃ i, row = [.leaf i]) : ∃ is : List Nat, row = is.map Tree.leaf := by
  induction h using star_induction with
  | nil => exact ⟨[], rfl⟩
  | cons part hpart rest _ ih =>
    obtain ⟨i, rfl⟩ := hf part hpart
    obtain ⟨is, rfl⟩ := ih
    exact ⟨i :: is, rfl⟩

theorem leaf_of_leafOf {p : TokenKind → Bool} (h : row ∈ leafOf tokens p) : ∃ i, row = [.leaf i] := by
  obtain ⟨i, _, _, _, _, e⟩ := h
  exact ⟨i, e⟩

theorem leaves_of_optional {p : TokenKind → Bool} (h : row ∈ optional (leafOf tokens p)) :
    ∃ is : List Nat, row = is.map Tree.leaf := by
  rcases h with h | h
  · exact ⟨[], (Language.mem_one _).1 h⟩
  · obtain ⟨i, rfl⟩ := leaf_of_leafOf h
    exact ⟨[i], rfl⟩

/-- A row of nodes of some kinds. -/
theorem kind_of_star {kinds : List NodeKind} (h : row ∈ (nodeIn kinds)∗) :
    ∀ t ∈ row, ∃ kind ∈ kinds, t.kind? = some kind := by
  intro t ht
  obtain ⟨parts, rfl, hp⟩ := Language.mem_kstar.1 h
  obtain ⟨part, hm, ht⟩ := List.mem_flatten.1 ht
  obtain ⟨kind, hk, place, ts, rfl⟩ := hp part hm
  rw [List.mem_singleton.1 ht]
  exact ⟨kind, hk, rfl⟩

/-- A tree that is a leaf, or a term. -/
def IsTermOrLeaf (named : Bool) (t : Tree) : Prop := t.isNode = false ∨ [t] ∈ termRow named

/-- A value begins with a term, and if more follows, another term is among it. -/
theorem mem_valueRow {named : Bool} (h : row ∈ valueRow (leafOf tokens) named) :
    ∃ first rest, row = first :: rest ∧ [first] ∈ termRow named ∧
      (∀ t ∈ rest, IsTermOrLeaf named t) ∧ (rest = [] ∨ ∃ t ∈ rest, [t] ∈ termRow named) := by
  obtain ⟨front, hf, rest, hr, rfl⟩ := Language.mem_mul.1 h
  obtain ⟨kind, hk, place, children, rfl⟩ := hf
  refine ⟨_, rest, rfl, mem_nodeIn hk place children, ?_⟩
  clear h
  induction hr using star_induction with
  | nil => simp
  | cons part hpart rest hrest ih =>
    obtain ⟨separator, hs, term, ht, rfl⟩ := Language.mem_mul.1 hpart
    obtain ⟨kind', hk', place', children', rfl⟩ := ht
    have hterm : [.node kind' place' children'] ∈ termRow named := mem_nodeIn hk' place' children'
    have hsep : ∀ t ∈ separator, t.isNode = false := by
      rcases hs with hs | hs
      · rw [(Language.mem_one _).1 hs]
        simp
      · obtain ⟨i, t, -, -, -, rfl⟩ := hs
        simp [isNode]
    refine ⟨fun t ht => ?_, Or.inr ⟨.node kind' place' children', by simp, hterm⟩⟩
    simp only [List.mem_append, List.mem_singleton] at ht
    rcases ht with (ht | rfl) | ht
    · exact Or.inl (hsep t ht)
    · exact Or.inr hterm
    · exact ih.1 t ht

end Grammar

namespace Reading

variable {r : Reading}

theorem tokens_map_leaf (kind : NodeKind) (place : Nat) (is : List Nat) :
    (Tree.node kind place (is.map Tree.leaf)).tokens = is := by
  rw [Tree.tokens, Tree.children, List.filterMap_map]
  exact List.filterMap_some

theorem leavesAmong_map_leaf (is : List Nat) : leavesAmong (is.map Tree.leaf) = is := by
  induction is with
  | nil => rfl
  | cons i is ih => rw [List.map_cons, leavesAmong, ih]; rfl

/-- The kinds of tokens. -/
def kindsAt (r : Reading) (indices : List Nat) : List TokenKind := indices.filterMap r.kind?

theorem kindsAt_cons {i : Nat} {k : TokenKind} (h : r.kind? i = some k) (is : List Nat) :
    r.kindsAt (i :: is) = k :: r.kindsAt is := by
  rw [kindsAt, List.filterMap_cons, h]
  rfl

theorem kindsAt_append (is js : List Nat) :
    r.kindsAt (is ++ js) = r.kindsAt is ++ r.kindsAt js :=
  List.filterMap_append

theorem child?_eq_some {t c : Tree} {kind : NodeKind} (h : t.child? kind = some c) :
    c ∈ t.children ∧ c.kind? = some kind := by
  have hk : (c.kind? == some kind) = true :=
    List.find?_some (p := fun u : Tree => u.kind? == some kind) h
  exact ⟨List.mem_of_find?_eq_some h, beq_iff_eq.1 hk⟩

/-! ## Values -/

theorem mem_termRow {named : Bool} {kind : NodeKind} {place : Nat} {children : List Tree}
    (h : [.node kind place children] ∈ termRow named) :
    kind = .term ∨ kind = .functionCall ∨ kind = .namedArgument ∧ named = true := by
  obtain ⟨kind', hk, _, _, e⟩ := h
  cases e
  cases named <;> simpa using hk

theorem leaf_not_mem {named : Bool} {i : Nat} : [.leaf i] ∉ termRow named := by
  rintro ⟨_, _, _, _, e⟩
  cases e

theorem leafOf_kind? {p : TokenKind → Bool} {row : List Tree} (h : row ∈ leafOf r.tokens p) :
    ∃ i u, row = [.leaf i] ∧ r.tokens[i]? = some u ∧ r.kind? i = some u.kind ∧ p u.kind = true := by
  obtain ⟨i, u, hi, -, hp, rfl⟩ := h
  exact ⟨i, u, rfl, hi, by rw [kind?, hi]; rfl, hp⟩

/-- A function call: its name, the value that it is called with if there is one, its parenthesis. -/
theorem mem_functionCall {children : List Tree}
    (h : children ∈ production (leafOf r.tokens) .functionCall) :
    ∃ f name row c, children = .leaf f :: (row ++ [.leaf c]) ∧ r.kind? f = some (.function name) ∧
      r.kind? c = some (.closing .paren) ∧
      (row = [] ∨ ∃ place ts, row = [.node .value place ts] ∧
        ts ∈ valueRow (leafOf r.tokens) true) := by
  obtain ⟨front, behind, hf, hb, rfl⟩ := mem_prod_cons h
  obtain ⟨row, last, hr, hl, rfl⟩ := mem_prod_cons hb
  obtain ⟨f, u, rfl, -, hk, hp⟩ := leafOf_kind? hf
  obtain ⟨c, v, rfl, -, hc, hq⟩ := leafOf_kind? (mem_prod_last hl)
  have hv : v.kind = .closing .paren := eq_of_beq hq
  rw [hv] at hc
  cases hu : u.kind with
  | function name =>
    rw [hu] at hk
    refine ⟨f, name, row, c, rfl, hk, hc, ?_⟩
    rcases hr with hr | ⟨place, ts, hts, rfl⟩
    · exact Or.inl ((Language.mem_one _).1 hr)
    · exact Or.inr ⟨place, ts, rfl, hts⟩
  | _ => rw [hu] at hp; contradiction

theorem mem_namedArgument {children : List Tree}
    (h : children ∈ production (leafOf r.tokens) .namedArgument) :
    ∃ i name e t, children = [.leaf i, .leaf e, t] ∧ r.kind? i = some (.ident name) ∧
      [t] ∈ termRow false := by
  obtain ⟨front, behind, hf, hb, rfl⟩ := mem_prod_cons h
  obtain ⟨equals, last, he, hl, rfl⟩ := mem_prod_cons hb
  obtain ⟨i, u, rfl, -, hk, hp⟩ := leafOf_kind? hf
  obtain ⟨e, v, rfl, -, -, -⟩ := leafOf_kind? he
  have ht := mem_prod_last hl
  obtain ⟨kind, hkind, place, ts, rfl⟩ := ht
  cases hu : u.kind with
  | ident name =>
    rw [hu] at hk
    exact ⟨i, name, e, _, rfl, hk, mem_nodeIn hkind place ts⟩
  | _ => rw [hu] at hp; contradiction

/-! ## Declarations and features -/

/-- A declaration: its property, a colon, the value, and what may follow. -/
theorem mem_declaration {children : List Tree}
    (h : children ∈ production (leafOf r.tokens) .declaration) :
    ∃ (i : Nat) (name : String) (colon place : Nat) (ts : List Tree) (is : List Nat),
      r.kind? i = some (.ident name) ∧
      children = .leaf i :: .leaf colon :: .node .value place ts :: is.map Tree.leaf ∧
      ts ∈ valueRow (leafOf r.tokens) false := by
  obtain ⟨property, behind, hn, h₁, rfl⟩ := mem_prod_cons h
  obtain ⟨colon, behind, hc, h₂, rfl⟩ := mem_prod_cons h₁
  obtain ⟨value, behind, hv, h₃, rfl⟩ := mem_prod_cons h₂
  obtain ⟨important, semicolon, hi, h₄, rfl⟩ := mem_prod_cons h₃
  obtain ⟨i, u, rfl, -, hk, hp⟩ := leafOf_kind? hn
  obtain ⟨c, rfl⟩ := leaf_of_leafOf hc
  obtain ⟨place, ts, hts, rfl⟩ := hv
  obtain ⟨is, rfl⟩ := leaves_of_optional hi
  obtain ⟨js, rfl⟩ := leaves_of_optional (mem_prod_last h₄)
  cases hu : u.kind with
  | ident name =>
    rw [hu] at hk
    exact ⟨i, name, c, place, ts, is ++ js, hk, by rw [List.map_append]; rfl, hts⟩
  | _ => rw [hu] at hp; contradiction

/-- A feature in its parentheses: the name, with a value behind a colon or alone. -/
theorem mem_mediaFeature {children : List Tree}
    (h : children ∈ production (leafOf r.tokens) .mediaFeature) :
    ∃ p i name row c, r.kind? p = some (.opening .paren) ∧ r.kind? i = some (.ident name) ∧
      children = .leaf p :: .leaf i :: (row ++ [.leaf c]) ∧
      (row = [] ∨ ∃ colon place ts, row = [.leaf colon, .node .value place ts] ∧
        ts ∈ valueRow (leafOf r.tokens) false) := by
  obtain ⟨paren, behind, hp, h₁, rfl⟩ := mem_prod_cons h
  obtain ⟨name, behind, hn, h₂, rfl⟩ := mem_prod_cons h₁
  obtain ⟨row, close, hr, h₃, rfl⟩ := mem_prod_cons h₂
  obtain ⟨p, t, rfl, -, hpk, ht⟩ := leafOf_kind? hp
  obtain ⟨i, u, rfl, -, hik, hu⟩ := leafOf_kind? hn
  obtain ⟨c, rfl⟩ := leaf_of_leafOf (mem_prod_last h₃)
  rw [eq_of_beq ht] at hpk
  cases hk : u.kind with
  | ident name =>
    rw [hk] at hik
    refine ⟨p, i, name, row, c, hpk, hik, rfl, ?_⟩
    rcases hr with hr | hr
    · exact Or.inl ((Language.mem_one _).1 hr)
    · obtain ⟨colon, value, hc, hv, rfl⟩ := mem_prod_cons hr
      obtain ⟨c', rfl⟩ := leaf_of_leafOf hc
      obtain ⟨place, ts, hts, rfl⟩ := mem_prod_last hv
      exact Or.inr ⟨c', place, ts, rfl, hts⟩
  | _ => rw [hk] at hu; contradiction

/-! ## Selectors -/

/-- The name of a pseudo-class: an identifier, or a function with all that it is called with. -/
def IsPseudoName (r : Reading) (i : Nat) (is : List Nat) : Prop :=
  (∃ name, r.kind? i = some (.ident name) ∧ is = []) ∨
    ∃ name inner c, r.kind? i = some (.function name) ∧ r.kind? c = some (.closing .paren) ∧
      is = inner ++ [c]

theorem mem_pseudoName {row : List Tree} (h : row ∈ leafOf r.tokens TokenKind.isIdent +
    [leafOf r.tokens isFunction, (leafOf r.tokens fun _ => true)∗,
      leafOf r.tokens isClosingParen].prod) :
    ∃ (i : Nat) (is : List Nat), row = (i :: is).map Tree.leaf ∧ r.IsPseudoName i is := by
  rcases h with h | h
  · obtain ⟨i, u, rfl, -, hi, hk⟩ := leafOf_kind? h
    cases hu : u.kind with
    | ident name =>
      rw [hu] at hi
      exact ⟨i, [], rfl, Or.inl ⟨name, hi, rfl⟩⟩
    | _ => rw [hu] at hk; contradiction
  · obtain ⟨front, behind, hf, hb, rfl⟩ := mem_prod_cons h
    obtain ⟨inner, last, hi, hl, rfl⟩ := mem_prod_cons hb
    obtain ⟨f, u, rfl, -, hfk, hk⟩ := leafOf_kind? hf
    obtain ⟨c, v, rfl, -, hck, hc⟩ := leafOf_kind? (mem_prod_last hl)
    obtain ⟨is, rfl⟩ := leaves_of_star hi fun _ => leaf_of_leafOf
    rw [eq_of_beq hc] at hck
    cases hu : u.kind with
    | function name =>
      rw [hu] at hfk
      exact ⟨f, is ++ [c], by simp, Or.inr ⟨name, is, c, hfk, hck, rfl⟩⟩
    | _ => rw [hu] at hk; contradiction

/-- A pseudo-class is read by its name, which stands behind one colon or two. -/
theorem mem_pseudoSelector (place : Nat) {children : List Tree}
    (h : children ∈ production (leafOf r.tokens) .pseudoSelector) :
    ∃ (colons : List Nat) (element : Bool) (i : Nat) (is : List Nat),
      children = (colons ++ i :: is).map Tree.leaf ∧ r.IsPseudoName i is ∧
      r.pseudoOf? (.node .pseudoSelector place children) = r.pseudoOfName? element (i :: is) := by
  obtain ⟨colon, behind, hc, hb, rfl⟩ := mem_prod_cons h
  obtain ⟨second, name, hs, hn, rfl⟩ := mem_prod_cons hb
  obtain ⟨c, rfl⟩ := leaf_of_leafOf hc
  obtain ⟨i, is, rfl, hname⟩ := mem_pseudoName (mem_prod_last hn)
  rcases hs with hs | hs
  · rw [(Language.mem_one _).1 hs]
    have hrow : [Tree.leaf c] ++ ([] ++ (i :: is).map Tree.leaf) =
        ([c] ++ i :: is).map Tree.leaf := rfl
    have hcolon : (r.kind? i == some .colon) = false := by
      rcases hname with ⟨_, hi, -⟩ | ⟨_, _, _, hi, -⟩ <;> rw [hi] <;> rfl
    refine ⟨[c], false, i, is, hrow, hname, ?_⟩
    rw [pseudoOf?, hrow, tokens_map_leaf]
    simp [hcolon]
  · obtain ⟨c₂, u, rfl, -, hk, hu⟩ := leafOf_kind? hs
    have hrow : [Tree.leaf c] ++ ([Tree.leaf c₂] ++ (i :: is).map Tree.leaf) =
        ([c, c₂] ++ i :: is).map Tree.leaf := rfl
    have hcolon : (r.kind? c₂ == some .colon) = true := by rw [hk, eq_of_beq hu]; rfl
    refine ⟨[c, c₂], true, i, is, hrow, hname, ?_⟩
    rw [pseudoOf?, hrow, tokens_map_leaf]
    simp [hcolon]

/-- A compound: an element or none, and conditions behind it. -/
theorem mem_simpleSelector {children : List Tree}
    (h : children ∈ production (leafOf r.tokens) .simpleSelector) :
    ∃ head conditions, children = head ++ conditions ∧ children ≠ [] ∧
      (head = [] ∨ ∃ t ∈ head, t.kind? = some .elementName) ∧
      ∀ t ∈ conditions, ∃ kind ∈ conditionKinds, t.kind? = some kind := by
  obtain ⟨hrow, hne⟩ := (Language.mem_sub _ _ _).1 h
  obtain ⟨head, conditions, hh, hc, rfl⟩ := mem_prod_cons hrow
  refine ⟨head, conditions, rfl, fun e => hne ((Language.mem_one _).2 e), ?_, ?_⟩
  · rcases hh with hh | hh
    · exact Or.inl ((Language.mem_one _).1 hh)
    · obtain ⟨nsPrefix, name, -, hn, rfl⟩ := mem_prod_cons hh
      obtain ⟨kind, hk, place, ts, rfl⟩ := mem_prod_last hn
      rw [List.mem_singleton.1 hk]
      exact Or.inr ⟨.node .elementName place ts, by simp, rfl⟩
  · exact kind_of_star (mem_prod_last hc)

/-- Between any two compounds there is a combinator. -/
theorem length_nodesOf_selector (place : Nat) {children : List Tree}
    (h : children ∈ production (leafOf r.tokens) .selector) :
    ((Tree.node .selector place children).nodesOf .simpleSelector).length =
      ((Tree.node .selector place children).nodesOf .combinator).length + 1 := by
  obtain ⟨first, hf, rest, hr, rfl⟩ := Language.mem_mul.1 h
  obtain ⟨kind, hk, p, ts, rfl⟩ := hf
  cases List.mem_singleton.1 hk
  clear h
  induction hr using star_induction with
  | nil => rfl
  | cons part hpart rest _ ih =>
    obtain ⟨c, hc, s, hs, rfl⟩ := Language.mem_mul.1 hpart
    obtain ⟨kind, hk, q, us, rfl⟩ := hc
    cases List.mem_singleton.1 hk
    obtain ⟨kind, hk, q', us', rfl⟩ := hs
    cases List.mem_singleton.1 hk
    simp [nodesOf, Tree.children, Tree.kind?] at ih ⊢
    omega

/-! ## Rules -/

theorem mem_rule {children : List Tree} (h : children ∈ production (leafOf r.tokens) .rule) :
    ∃ p list p' block, children =
      [.node .selectorList p list, .node .declarationBlock p' block] := by
  obtain ⟨front, behind, hf, hb, rfl⟩ := mem_prod_cons h
  obtain ⟨kind, hk, p, list, rfl⟩ := hf
  obtain ⟨kind', hk', p', block, rfl⟩ := mem_prod_last hb
  cases List.mem_singleton.1 hk
  cases List.mem_singleton.1 hk'
  exact ⟨p, list, p', block, rfl⟩

theorem mem_fontFaceRule {children : List Tree}
    (h : children ∈ production (leafOf r.tokens) .fontFaceRule) :
    ∃ i place block, children = [.leaf i, .node .declarationBlock place block] := by
  obtain ⟨front, behind, hf, hb, rfl⟩ := mem_prod_cons h
  obtain ⟨i, rfl⟩ := leaf_of_leafOf hf
  obtain ⟨kind, hk, place, block, rfl⟩ := mem_prod_last hb
  cases List.mem_singleton.1 hk
  exact ⟨i, place, block, rfl⟩

/-- A media rule: its queries, and in braces what stands in its block. -/
theorem mem_mediaRule {children : List Tree}
    (h : children ∈ production (leafOf r.tokens) .mediaRule) :
    ∃ (i place : Nat) (list : List Tree) (brace : Nat) (body : List Tree) (is : List Nat),
      children = .leaf i :: .node .mediaQueryList place list :: .leaf brace ::
        (body ++ is.map Tree.leaf) ∧
      ∀ t ∈ body, ∃ kind ∈ [NodeKind.rule, .unknownAtRule, .error], t.kind? = some kind := by
  obtain ⟨front, behind, hf, h₁, rfl⟩ := mem_prod_cons h
  obtain ⟨queries, behind, hq, h₂, rfl⟩ := mem_prod_cons h₁
  obtain ⟨brace, behind, hb, h₃, rfl⟩ := mem_prod_cons h₂
  obtain ⟨body, close, hbody, h₄, rfl⟩ := mem_prod_cons h₃
  obtain ⟨i, rfl⟩ := leaf_of_leafOf hf
  obtain ⟨kind, hk, place, list, rfl⟩ := hq
  obtain ⟨b, rfl⟩ := leaf_of_leafOf hb
  obtain ⟨is, rfl⟩ := leaves_of_optional (mem_prod_last h₄)
  cases List.mem_singleton.1 hk
  exact ⟨i, place, list, b, body, is, rfl, kind_of_star hbody⟩

end Reading

end Stylesheet
