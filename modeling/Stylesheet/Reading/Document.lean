import Stylesheet.Document
import Stylesheet.Reading.Selector
import Stylesheet.Reading.Value

/-!
# Documents from trees

Statements are read one after the other, each with the namespaces that were bound before it, and each
adds to the document (`Draft`). Of several namespace rules with one key the first binds it; a font
face keeps the last declaration of a descriptor, at the place of the first.
-/

namespace Stylesheet

/-- What is noted while a document is made: a problem, or that a namespace was bound. -/
inductive Note where
  | problem (p : Problem)
  | bound (key address : String)
deriving DecidableEq

namespace Note

def problem? : Note → Option Problem
  | .problem p => some p
  | .bound .. => none

end Note

/-- What statements add to a document, and what was noted. -/
structure Draft where
  namespaces : List Namespace := []
  fontFaces : List FontFace := []
  rules : List Rule := []
  notes : List Note := []

namespace Draft

def append (a b : Draft) : Draft :=
  ⟨a.namespaces ++ b.namespaces, a.fontFaces ++ b.fontFaces, a.rules ++ b.rules, a.notes ++ b.notes⟩

instance : Append Draft := ⟨append⟩

def problems (d : Draft) : List Problem := d.notes.filterMap Note.problem?

end Draft

/-- A descriptor in the place of the earlier one of its name. -/
def replaceDescriptor (d : Declaration) : List Declaration → List Declaration
  | [] => []
  | e :: rest => if e.isOf d.name then d :: rest else e :: replaceDescriptor d rest

namespace Reading

/-- The content of a declaration. -/
def declaration (r : Reading) (t : Tree) : Noted (Option Declaration) :=
  match r.ident? t.first, t.child? .value with
  | some name, some v => do
    let value ← r.value v
    let important := t.tokens.any fun index => r.kind? index == some .important
    return value.map fun value => ⟨name, value, important, r.spanOf t⟩
  | _, _ => return none

/-- The declarations of a block. -/
def declarations (r : Reading) (block : Tree) : Noted (List Declaration) :=
  Noted.collect? r.declaration (block.nodesOf .declaration)

/-- A feature of a media query. -/
def mediaFeature (r : Reading) (t : Tree) : Noted (Option MediaFeature) :=
  match t.tokens.findSome? r.ident? with
  | none => return none
  | some name =>
    match t.child? .value with
    | none => return some ⟨name, none⟩
    | some v => do return some ⟨name, ← r.value v⟩

/-- The qualifier and the medium that the words of a query stand for. -/
def mediaWords : List String → Option Qualifier × Option String
  | [] => (none, none)
  | [mediaType] => (none, some mediaType)
  | qualifier :: mediaType :: _ =>
    (some (if sameWord qualifier "not" then .not else .only), some mediaType)

def mediaQuery (r : Reading) (t : Tree) : Noted MediaQuery := do
  let words := (t.tokens.filterMap r.ident?).filter fun word => !sameWord word "and"
  let features ← Noted.collect? r.mediaFeature (t.nodesOf .mediaFeature)
  return ⟨(mediaWords words).1, (mediaWords words).2, features⟩

/-- The queries of a media rule. -/
def mediaQueries (r : Reading) (t : Tree) : Noted (List MediaQuery) :=
  match t.child? .mediaQueryList with
  | none => return []
  | some list => Noted.collect r.mediaQuery (list.nodesOf .mediaQuery)

/-- A style rule inside the block of some queries. -/
def rule (r : Reading) (options : Options) (known : List Namespace) (media : List MediaQuery)
    (t : Tree) : Noted (Option Rule) :=
  match t.child? .selectorList with
  | none => return none
  | some list => do
    let selectors ← r.selectors options known list
    if selectors.isEmpty then return none
    else
      let declarations ← match t.child? .declarationBlock with
        | none => pure []
        | some block => r.declarations block
      return some ⟨selectors, declarations, media, r.spanOf t⟩

/-- An at-rule that says nothing. -/
def invalidAtRule (r : Reading) (t : Tree) : Problem :=
  let name := match r.kind? t.first with
    | some (.atKeyword name) => name
    | _ => ""
  r.problem .invalidAtRule (r.spanOf t) [("name", name)]

/-- The content of a string or an address token. -/
def address? (r : Reading) (index : Nat) : Option String :=
  match r.kind? index with
  | some (.string s) | some (.url s) => some s
  | _ => none

/-- The prefix of a namespace rule. -/
def boundPrefix? (r : Reading) (t : Tree) : Option String :=
  ((t.child? .namespacePrefix).bind fun p => p.tokens.head?).bind r.ident?

/-- A namespace rule behind the namespaces that are known. -/
def namespaceRule (r : Reading) (known : List Namespace) (t : Tree) : Draft :=
  match t.tokens.findSome? r.address? with
  | none => {}
  | some address =>
    let n : Namespace := ⟨r.boundPrefix? t, address, r.spanOf t⟩
    if (Namespace.find? known n.key).isSome then
      { notes := [.problem (r.problem .duplicateNamespace n.span [("prefix", n.key)])] }
    else { namespaces := [n], notes := [.bound n.key address] }

/-- Declarations as descriptors behind those that are kept already. -/
def descriptors (r : Reading) (kept : List Declaration) :
    List Declaration → Noted (List Declaration)
  | [] => return kept
  | d :: rest =>
    if kept.any fun e => e.isOf d.name then do
      Noted.report (r.problem .duplicateDescriptor d.span [("property", d.name)])
      r.descriptors (replaceDescriptor d kept) rest
    else r.descriptors (kept ++ [d]) rest

/-- The descriptors of a font face rule. -/
def fontFace (r : Reading) (t : Tree) : Noted FontFace := do
  let declarations ← match t.child? .declarationBlock with
    | none => pure []
    | some block => r.declarations block
  return ⟨← r.descriptors [] declarations, r.spanOf t⟩

/-- The rules among nodes that stand inside a block of some queries, or outside any; at-rules that
    say nothing are reported. -/
def rules (r : Reading) (options : Options) (known : List Namespace) (media : List MediaQuery) :
    List Tree → Noted (List Rule)
  | [] => return []
  | t :: rest =>
    match t.kind? with
    | some .rule => do
      let found ← r.rule options known media t
      let more ← r.rules options known media rest
      return found.toList ++ more
    | some .unknownAtRule => do
      Noted.report (r.invalidAtRule t)
      r.rules options known media rest
    | _ => r.rules options known media rest

/-- The rules of a media rule, each with its queries. -/
def mediaRule (r : Reading) (options : Options) (known : List Namespace) (t : Tree) :
    Noted (List Rule) := do
  let media ← r.mediaQueries t
  r.rules options known media t.nodes

/-- What one statement adds to a document. -/
def statement (r : Reading) (options : Options) (known : List Namespace) (t : Tree) : Draft :=
  match t.kind? with
  | some .namespaceRule => r.namespaceRule known t
  | some .fontFaceRule =>
    let face := r.fontFace t
    { fontFaces := [face.result], notes := face.problems.map .problem }
  | some .mediaRule =>
    let rules := r.mediaRule options known t
    { rules := rules.result, notes := rules.problems.map .problem }
  | some .rule | some .unknownAtRule =>
    let rules := r.rules options known [] [t]
    { rules := rules.result, notes := rules.problems.map .problem }
  | _ => {}

/-- What statements add to a document, behind the namespaces that are known. -/
def statements (r : Reading) (options : Options) (known : List Namespace) : List Tree → Draft
  | [] => {}
  | t :: rest =>
    let draft := r.statement options known t
    draft ++ r.statements options (known ++ draft.namespaces) rest

end Reading

/-- A document, and what was noted while it was made. -/
structure Building where
  document : Document
  notes : List Note

namespace Building

def problems (b : Building) : List Problem := b.notes.filterMap Note.problem?

end Building

/-- The document of a syntax tree over its tokens. -/
def buildDocument (source : String) (tokens : List Token) (tree : Tree) (options : Options) :
    Building :=
  let r : Reading := ⟨source, tokens⟩
  let draft := r.statements options [] tree.nodes
  ⟨⟨source, r.spanOf tree, draft.namespaces, draft.fontFaces, draft.rules⟩, draft.notes⟩

end Stylesheet
