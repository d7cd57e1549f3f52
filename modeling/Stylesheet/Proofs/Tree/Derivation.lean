import Mathlib.Computability.Language
import Stylesheet.Grammar.Statement

/-!
# Derivations

The grammar of trees. `production` gives for each kind of node the rows of children that it may
have, as a language over trees; a tree is derived if the children of each of its nodes are such a
row (`Derived`). A sequence is a product of languages, a choice a sum, a repetition a star.

Whitespace is left out of the rows, unless it separates selectors or terms, and a row that belongs to
an error node, an at-rule that is not read, or the argument of a pseudo-class is just tokens.
-/

namespace Stylesheet

open Computability

namespace Grammar

/-! ## Kinds of tokens -/

def isKeyword (name : String) : TokenKind → Bool
  | .atKeyword word => sameWord word name
  | _ => false

def isAtKeyword : TokenKind → Bool
  | .atKeyword _ => true
  | _ => false

def isFunction : TokenKind → Bool
  | .function _ => true
  | _ => false

/-- A hash that is an identifier. -/
def isId : TokenKind → Bool
  | .hash _ isId => isId
  | _ => false

def isIdentOrString : TokenKind → Bool
  | .ident _ | .string _ => true
  | _ => false

/-- A term of one token. -/
def isLiteral (k : TokenKind) : Bool := startsTerm k && !isFunction k

/-! ## Rows -/

/-- One node, of one of the kinds. -/
def nodeIn (kinds : List NodeKind) : Language Tree :=
  {row | ∃ kind ∈ kinds, ∃ place children, row = [.node kind place children]}

def nodeOf (kind : NodeKind) : Language Tree := nodeIn [kind]

/-- One node of a kind, with children of one form. -/
def nodeWith (kind : NodeKind) (content : Language Tree) : Language Tree :=
  {row | ∃ place, ∃ children ∈ content, row = [.node kind place children]}

def optional (part : Language Tree) : Language Tree := 1 + part

/-- One or more parts, with a separator between any two. -/
def separated (part separator : Language Tree) : Language Tree := part * (separator * part)∗

/-- One token out of a list, of one of the kinds, as a leaf. -/
def leafOf (tokens : List Token) (p : TokenKind → Bool) : Language Tree :=
  {row | ∃ i t, tokens[i]? = some t ∧ t.kind ≠ .eof ∧ p t.kind = true ∧ row = [.leaf i]}

/-! ## The grammar

It takes the language of a single token as a parameter, since a leaf is only the number of a token. -/

section

variable (tok : (TokenKind → Bool) → Language Tree)

/-- The bar of a compound selector with the name in front of it. -/
def barRow : Language Tree := [optional (tok isNameOrAny), tok (· == .bar)].prod

/-- A term; a named one only among the arguments of a function. -/
def termRow (named : Bool) : Language Tree :=
  nodeIn ([.term, .functionCall] ++ if named then [.namedArgument] else [])

/-- Terms with their separators; where there is no blank in between, there need not be any. -/
def valueRow (named : Bool) : Language Tree :=
  separated (termRow named) (optional (tok fun k => isSeparator k || k == .whitespace))

def valueNode (named : Bool) : Language Tree := nodeWith .value (valueRow tok named)

/-- The children that a node may have. -/
def production : NodeKind → Language Tree
  | .stylesheet =>
    (nodeIn [.namespaceRule, .fontFaceRule, .mediaRule, .unknownAtRule, .rule, .error])∗
  | .namespaceRule =>
    [tok (isKeyword "namespace"), optional (nodeWith .namespacePrefix (tok TokenKind.isIdent)),
      tok isAddress, optional (tok (· == .semicolon))].prod
  | .namespacePrefix => tok TokenKind.isIdent + barRow tok
  | .fontFaceRule => [tok (isKeyword "font-face"), nodeOf .declarationBlock].prod
  | .mediaRule =>
    [tok (isKeyword "media"), nodeOf .mediaQueryList, tok (· == .opening .brace),
      (nodeIn [.rule, .unknownAtRule, .error])∗, optional (tok (· == .closing .brace))].prod
  | .mediaQueryList => optional (separated (nodeOf .mediaQuery) (tok (· == .comma)))
  | .mediaQuery =>
    [[tok isQualifier, tok isMediaType].prod + tok isMediaType + nodeOf .mediaFeature,
      ([tok isAnd, nodeOf .mediaFeature].prod)∗].prod
  | .mediaFeature =>
    [tok (· == .opening .paren), tok TokenKind.isIdent,
      optional [tok (· == .colon), valueNode tok false].prod, tok isClosingParen].prod
  | .unknownAtRule => [tok isAtKeyword, (tok fun _ => true)∗].prod
  | .rule => [nodeOf .selectorList, nodeOf .declarationBlock].prod
  | .selectorList => separated (nodeOf .selector) (tok (· == .comma))
  | .selector => separated (nodeOf .simpleSelector) (nodeOf .combinator)
  | .simpleSelector =>
    [optional [optional (nodeWith .namespacePrefix (barRow tok)), nodeOf .elementName].prod,
      (nodeIn [.idSelector, .classSelector, .attributeSelector, .pseudoSelector])∗].prod - 1
  | .elementName => tok isNameOrAny
  | .idSelector => tok isId
  | .classSelector => [tok (· == .dot), tok TokenKind.isIdent].prod
  | .attributeSelector =>
    [tok (· == .opening .square), tok TokenKind.isIdent,
      optional [tok isComparison, tok isIdentOrString].prod, tok (· == .closing .square)].prod
  | .pseudoSelector =>
    [tok (· == .colon), optional (tok (· == .colon)),
      tok TokenKind.isIdent + [tok isFunction, (tok fun _ => true)∗, tok isClosingParen].prod].prod
  | .combinator => tok fun k => isCombinator k || k == .whitespace
  | .declarationBlock =>
    [tok (· == .opening .brace), (nodeIn [.declaration, .error] + tok (· == .semicolon))∗,
      optional (tok (· == .closing .brace))].prod
  | .declaration =>
    [tok TokenKind.isIdent, tok (· == .colon), valueNode tok false,
      optional (tok (· == .important)), optional (tok (· == .semicolon))].prod
  | .value => valueRow tok true
  | .term => tok isLiteral
  | .functionCall => [tok isFunction, optional (valueNode tok true), tok isClosingParen].prod
  | .namedArgument => [tok TokenKind.isIdent, tok (· == .comparison .equals), termRow false].prod
  | .error => (tok fun _ => true)∗

end

/-- Every node of the tree has the children of its production. -/
inductive Derived (tokens : List Token) : Tree → Prop
  | leaf (index : Nat) : Derived tokens (.leaf index)
  | node {kind : NodeKind} {place : Nat} {children : List Tree}
      (h : children ∈ production (leafOf tokens) kind) (hs : ∀ t ∈ children, Derived tokens t) :
      Derived tokens (.node kind place children)

namespace Derived

variable {tokens : List Token} {t : Tree}

/-- A node with its row of children. -/
theorem row {kind : NodeKind} (h : Derived tokens t) (hk : t.kind? = some kind) :
    ∃ place children, t = .node kind place children ∧
      children ∈ production (leafOf tokens) kind ∧ ∀ c ∈ children, Derived tokens c := by
  cases h with
  | leaf => contradiction
  | @node _ place children hrow hs =>
    cases hk
    exact ⟨place, children, rfl, hrow, hs⟩

theorem child {c : Tree} (h : Derived tokens t) (hc : c ∈ t.children) : Derived tokens c := by
  cases h with
  | leaf => contradiction
  | node _ hs => exact hs c hc

end Derived

theorem mem_nodeIn {kinds : List NodeKind} {kind : NodeKind} (h : kind ∈ kinds) (place : Nat)
    (children : List Tree) : [.node kind place children] ∈ nodeIn kinds :=
  ⟨kind, h, place, children, rfl⟩

theorem nodeWith_le (kind : NodeKind) (content : Language Tree) :
    ∀ row ∈ nodeWith kind content, row ∈ nodeOf kind := by
  intro row h
  obtain ⟨place, children, -, rfl⟩ := h
  exact mem_nodeIn List.mem_cons_self place children

theorem mem_optional_nil (part : Language Tree) : [] ∈ optional part :=
  Or.inl Language.nil_mem_one

theorem mem_optional {part : Language Tree} {row : List Tree} (h : row ∈ part) :
    row ∈ optional part :=
  Or.inr h

theorem mem_star_cons {part : Language Tree} {row rows : List Tree} (h : row ∈ part)
    (hs : rows ∈ part∗) : row ++ rows ∈ part∗ := by
  rw [← Language.one_add_self_mul_kstar_eq_kstar]
  exact Or.inr (Language.append_mem_mul h hs)

/-- A row of repeated parts is empty, or it is a part in front of such a row. -/
@[elab_as_elim]
theorem star_induction {part : Language Tree} {motive : (row : List Tree) → row ∈ part∗ → Prop}
    (nil : motive [] (Language.nil_mem_kstar part))
    (cons : ∀ row (h : row ∈ part) rows (hs : rows ∈ part∗), motive rows hs →
      motive (row ++ rows) (mem_star_cons h hs))
    {row : List Tree} (h : row ∈ part∗) : motive row h := by
  obtain ⟨rows, e, hrows⟩ := Language.mem_kstar.1 h
  induction rows generalizing row with
  | nil =>
    cases e
    exact nil
  | cons front rows ih =>
    obtain ⟨hfront, hrows⟩ := List.forall_mem_cons.1 hrows
    cases e
    exact cons front hfront rows.flatten (Language.mem_kstar.2 ⟨rows, rfl, hrows⟩)
      (ih _ rfl hrows)

/-- Where names are not allowed, there are fewer values. -/
theorem valueRow_le (tok : (TokenKind → Bool) → Language Tree) (named : Bool) :
    ∀ row ∈ valueRow tok named, row ∈ valueRow tok true := by
  have ht : termRow named ≤ termRow true := by
    intro row h
    obtain ⟨kind, hk, place, children, rfl⟩ := h
    refine mem_nodeIn ?_ place children
    cases named with
    | false => exact List.mem_append_left [.namedArgument] hk
    | true => exact hk
  have hv : valueRow tok named ≤ valueRow tok true :=
    mul_le_mul' ht (kstar_mono (mul_le_mul' le_rfl ht))
  intro row h
  exact hv h

end Grammar

end Stylesheet
