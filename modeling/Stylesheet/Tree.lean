import Stylesheet.Token

/-!
# Syntax trees

A node of a syntax tree names the production that it stands for; a leaf is the number of a token in
the list that was parsed, so a tree has its meaning together with that list. A node reaches from the
first token below it to the last; a node without children has only the place it was put at.
-/

namespace Stylesheet

/-- The productions of the grammar, and the runs of tokens that none of them took. -/
inductive NodeKind where
  | stylesheet
  | namespaceRule
  | namespacePrefix
  | fontFaceRule
  | mediaRule
  | mediaQueryList
  | mediaQuery
  | mediaFeature
  | unknownAtRule
  | rule
  | selectorList
  | selector
  | simpleSelector
  | elementName
  | idSelector
  | classSelector
  | attributeSelector
  | pseudoSelector
  | combinator
  | declarationBlock
  | declaration
  | value
  | term
  | functionCall
  | namedArgument
  | error
deriving DecidableEq, Repr, Inhabited

namespace NodeKind

/-- The name of a production in an outline. -/
def name : NodeKind → String
  | .stylesheet => "Stylesheet"
  | .namespaceRule => "NamespaceRule"
  | .namespacePrefix => "NamespacePrefix"
  | .fontFaceRule => "FontFaceRule"
  | .mediaRule => "MediaRule"
  | .mediaQueryList => "MediaQueryList"
  | .mediaQuery => "MediaQuery"
  | .mediaFeature => "MediaFeature"
  | .unknownAtRule => "UnknownAtRule"
  | .rule => "Rule"
  | .selectorList => "SelectorList"
  | .selector => "Selector"
  | .simpleSelector => "SimpleSelector"
  | .elementName => "ElementName"
  | .idSelector => "IdSelector"
  | .classSelector => "ClassSelector"
  | .attributeSelector => "AttributeSelector"
  | .pseudoSelector => "PseudoSelector"
  | .combinator => "Combinator"
  | .declarationBlock => "DeclarationBlock"
  | .declaration => "Declaration"
  | .value => "Value"
  | .term => "Term"
  | .functionCall => "FunctionCall"
  | .namedArgument => "NamedArgument"
  | .error => "Error"

/-- All productions. -/
def all : List NodeKind :=
  [.stylesheet, .namespaceRule, .namespacePrefix, .fontFaceRule, .mediaRule, .mediaQueryList,
    .mediaQuery, .mediaFeature, .unknownAtRule, .rule, .selectorList, .selector, .simpleSelector,
    .elementName, .idSelector, .classSelector, .attributeSelector, .pseudoSelector, .combinator,
    .declarationBlock, .declaration, .value, .term, .functionCall, .namedArgument, .error]

end NodeKind

/-- A syntax tree. `place` is where a node stands that has no children. -/
inductive Tree where
  | leaf (index : Nat)
  | node (kind : NodeKind) (place : Nat) (children : List Tree)
deriving Inhabited

namespace Tree

/-- The first token that a tree reaches over. -/
def first : Tree → Nat
  | .leaf index => index
  | .node _ place [] => place
  | .node _ _ (child :: _) => child.first

mutual

/-- The last token that a tree reaches over. -/
def last : Tree → Nat
  | .leaf index => index
  | .node _ place children => lastAmong place children

/-- The last token of the last tree, `otherwise` if there is none. -/
def lastAmong (otherwise : Nat) : List Tree → Nat
  | [] => otherwise
  | child :: rest => lastAmong child.last rest

end

def kind? : Tree → Option NodeKind
  | .leaf _ => none
  | .node kind _ _ => some kind

def children : Tree → List Tree
  | .leaf _ => []
  | .node _ _ children => children

def isNode : Tree → Bool
  | .leaf _ => false
  | .node .. => true

def index? : Tree → Option Nat
  | .leaf index => some index
  | .node .. => none

/-- The nodes directly below. -/
def nodes (t : Tree) : List Tree := t.children.filter isNode

/-- The tokens directly below. -/
def tokens (t : Tree) : List Nat := t.children.filterMap index?

/-- The nodes of one production directly below. -/
def nodesOf (t : Tree) (kind : NodeKind) : List Tree := t.children.filter (·.kind? == some kind)

/-- The first node of a production directly below. -/
def child? (t : Tree) (kind : NodeKind) : Option Tree := t.children.find? (·.kind? == some kind)

/-- The text stretch that a tree reaches over. -/
def span (t : Tree) (tokens : List Token) : Span :=
  match tokens[t.first]?, tokens[t.last]? with
  | some a, some b => a.span.hull b.span
  | some a, none => a.span
  | none, some b => b.span
  | none, none => .nowhere

end Tree

end Stylesheet
