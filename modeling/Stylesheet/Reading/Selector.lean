import Stylesheet.Namespace
import Stylesheet.Options
import Stylesheet.Reading.Basic
import Stylesheet.Selector

/-!
# Selectors from trees

A compound is read with the namespaces that were bound before it. An element without a prefix belongs
to the default namespace if the options say so; a prefix that nothing binds is reported.
-/

namespace Stylesheet.Reading

/-- The prefix that stands for any namespace. -/
def anyNamespace : String := "*"

/-- The prefix, written as nothing in front of a bar, that stands for no namespace. -/
def noNamespace : String := ""

def prefixOf? (r : Reading) (t : Tree) : Option String :=
  match r.kind? t.first with
  | some (.ident name) => some name
  | some .asterisk => some anyNamespace
  | some .bar => some noNamespace
  | _ => none

def elementOf? (r : Reading) (t : Tree) : Option ElementName :=
  match r.kind? t.first with
  | some (.ident name) => some (.type name)
  | some .asterisk => some .any
  | _ => none

def idOf? (r : Reading) (t : Tree) : Option Condition :=
  match r.kind? t.first with
  | some (.hash name _) => some (.hasId name)
  | _ => none

def classOf? (r : Reading) (t : Tree) : Option Condition :=
  (t.tokens[1]?.bind r.ident?).map Condition.hasClass

/-- The attribute condition of the tokens behind the opening bracket. -/
def attributeOfKinds? : List TokenKind → Option Condition
  | .ident name :: .comparison op :: .ident value :: _ => some (.attribute name (some (op, value)))
  | .ident name :: .comparison op :: .string value :: _ => some (.attribute name (some (op, value)))
  | .ident _ :: .comparison _ :: _ => none
  | .ident name :: _ :: _ => some (.attribute name none)
  | _ => none

def attributeOf? (r : Reading) (t : Tree) : Option Condition :=
  attributeOfKinds? ((t.tokens.filterMap r.kind?).drop 1)

/-- The argument of a functional pseudo-class: the text between the parentheses, trimmed. -/
def pseudoArgument (r : Reading) (indices : List Nat) : String :=
  String.ofList (trimmed (String.join (indices.dropLast.map r.text)).toList)

/-- The pseudo-class of the tokens behind the colons. -/
def pseudoOfName? (r : Reading) (element : Bool) : List Nat → Option Condition
  | [] => none
  | index :: rest =>
    match r.kind? index with
    | some (.ident name) => some (.pseudo name none element)
    | some (.function name) => some (.pseudo name (some (r.pseudoArgument rest)) element)
    | _ => none

def pseudoOf? (r : Reading) (t : Tree) : Option Condition :=
  let indices := t.tokens
  let element := indices[1]?.bind r.kind? == some .colon
  r.pseudoOfName? element (indices.drop (if element then 2 else 1))

/-- The condition that a node stands for. -/
def conditionOf? (r : Reading) (t : Tree) : Option Condition :=
  match t.kind? with
  | some .idSelector => r.idOf? t
  | some .classSelector => r.classOf? t
  | some .attributeSelector => r.attributeOf? t
  | some .pseudoSelector => r.pseudoOf? t
  | _ => none

/-- The address of the namespace of a compound, by its prefix and whether it names an element. -/
def resolve (r : Reading) (options : Options) (known : List Namespace) (nsPrefix : Option String)
    (hasElement : Bool) (span : Span) : Noted (Option String) :=
  match nsPrefix with
  | some p =>
    if p = anyNamespace ∨ p = noNamespace then return none
    else
      match Namespace.find? known p with
      | some n => return some n.address
      | none => do
        Noted.report (r.problem .unknownNamespace span [("prefix", p)])
        return none
  | none =>
    if hasElement && options.qualifiedTypeSelectors then
      return (Namespace.find? known "").map Namespace.address
    else return none

/-- A compound selector. -/
def compound (r : Reading) (options : Options) (known : List Namespace) (t : Tree) :
    Noted Compound := do
  let prefixNode := t.child? .namespacePrefix
  let nsPrefix := prefixNode.bind r.prefixOf?
  let element := (t.child? .elementName).bind r.elementOf?
  let address ← r.resolve options known nsPrefix element.isSome (r.spanOf (prefixNode.getD t))
  return ⟨nsPrefix, address, element, t.nodes.filterMap r.conditionOf?⟩

/-- A combinator; a blank is one as well. -/
def combinator (r : Reading) (t : Tree) : Combinator :=
  match r.kind? t.first with
  | some .greater => .child
  | some .plus => .adjacent
  | some .tilde => .general
  | _ => .descendant

/-- A selector, if it has a compound. -/
def selector (r : Reading) (options : Options) (known : List Namespace) (t : Tree) :
    Noted (Option Selector) := do
  let compounds ← Noted.collect (r.compound options known) (t.nodesOf .simpleSelector)
  if compounds.isEmpty then return none
  else return some ⟨compounds, (t.nodesOf .combinator).map r.combinator, r.spanOf t⟩

/-- The selectors of a list. -/
def selectors (r : Reading) (options : Options) (known : List Namespace) (t : Tree) :
    Noted (List Selector) :=
  Noted.collect? (r.selector options known) (t.nodesOf .selector)

end Stylesheet.Reading
