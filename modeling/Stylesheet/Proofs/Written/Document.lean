import Stylesheet.Document
import Stylesheet.Proofs.Written.Shape

/-!
# The shape of documents

Names, addresses and attribute values are rendered as they stand, so a rendered document can be read
back only where they are plain (`Document.IsPlain`). What a text cannot say at all never comes out of
one (`Document.IsShaped`): a prefix without an element, a compound that asks for nothing, a query
that names neither a medium nor a feature. `Document.bare` leaves out where the parts stood and what
was looked up for them.
-/

namespace Stylesheet

/-! ## Plain parts -/

/-- A text that is a string between double quotes as it stands. -/
def isBareChar (c : Char) : Bool := c != '"' && c != '\\' && !isNewline c && c != nul

def isBareText (s : String) : Bool := s.toList.all isBareChar

namespace Condition

/-- The names are plain, an attribute value can stand between quotes, and the argument of a function is
    nothing or a plain name. -/
def isPlain : Condition → Bool
  | .hasClass name | .hasId name => isPlainName name
  | .pseudo name argument _ =>
    isPlainName name && argument.all fun a => a == "" || isPlainName a
  | .attribute name matcher => isPlainName name && matcher.all fun m => isBareText m.2

end Condition

/-- A prefix that is a plain name, or stands for any namespace or for none. -/
def isPlainPrefix (p : String) : Bool := p == "*" || p == "" || isPlainName p

def Compound.isPlain (c : Compound) : Bool :=
  c.nsPrefix.all isPlainPrefix && c.typeName?.all isPlainName && c.conditions.all Condition.isPlain

def Selector.isPlain (s : Selector) : Bool := s.compounds.all Compound.isPlain

def MediaQuery.isPlain (q : MediaQuery) : Bool :=
  q.mediaType.all isPlainName && q.features.all fun f => isPlainName f.name

def Declaration.isPlain (d : Declaration) : Bool := isPlainName d.name

def Rule.isPlain (r : Rule) : Bool :=
  r.selectors.all Selector.isPlain && r.declarations.all Declaration.isPlain &&
    r.media.all MediaQuery.isPlain

def FontFace.isPlain (f : FontFace) : Bool := f.descriptors.all Declaration.isPlain

def Namespace.isPlain (n : Namespace) : Bool := n.nsPrefix.all isPlainName && isBareText n.address

/-- All names are plain, and addresses and attribute values can stand between quotes. -/
def Document.isPlain (d : Document) : Bool :=
  d.namespaces.all Namespace.isPlain && d.fontFaces.all FontFace.isPlain && d.rules.all Rule.isPlain

/-! ## Values -/

def MediaQuery.values (q : MediaQuery) : List Value := q.features.filterMap MediaFeature.value

def Rule.values (r : Rule) : List Value :=
  r.media.flatMap MediaQuery.values ++ r.declarations.map Declaration.value

def FontFace.values (f : FontFace) : List Value := f.descriptors.map Declaration.value

/-- The values of declarations, descriptors and media features. -/
def Document.values (d : Document) : List Value :=
  d.fontFaces.flatMap FontFace.values ++ d.rules.flatMap Rule.values

/-! ## What a text can say -/

/-- A function that bears the name of an address is called with a string and more. -/
def Condition.IsShaped : Condition → Prop
  | .pseudo name (some argument) _ =>
    sameWord name "url" = true → '"' ∈ argument.toList ∨ '\'' ∈ argument.toList
  | _ => True

/-- A prefix belongs to an element, and a compound asks for something. -/
structure Compound.IsShaped (c : Compound) : Prop where
  element : c.nsPrefix.isSome = true → c.element.isSome = true
  filled : c.element = none → c.conditions ≠ []
  conditions : ∀ k ∈ c.conditions, k.IsShaped

/-- Compounds with a combinator between any two. -/
structure Selector.IsShaped (s : Selector) : Prop where
  joined : s.compounds.length = s.combinators.length + 1
  compounds : ∀ c ∈ s.compounds, c.IsShaped

/-- A query names a medium or a feature, no medium is called `and`, and behind a medium that could be
    read as a qualifier there is no feature. -/
structure MediaQuery.IsShaped (q : MediaQuery) : Prop where
  filled : q.mediaType = none → q.qualifier = none ∧ q.features ≠ []
  medium : ∀ m ∈ q.mediaType, sameWord m "and" = false
  alone : q.qualifier = none → ∀ m ∈ q.mediaType,
    (sameWord m "only" || sameWord m "not") = true → q.features = []
  values : ∀ v ∈ q.values, v.IsShaped false

structure Rule.IsShaped (r : Rule) : Prop where
  filled : r.selectors ≠ []
  selectors : ∀ s ∈ r.selectors, s.IsShaped
  declarations : ∀ d ∈ r.declarations, d.value.IsShaped false
  media : ∀ q ∈ r.media, q.IsShaped

/-- No descriptor stands twice. -/
structure FontFace.IsShaped (f : FontFace) : Prop where
  values : ∀ v ∈ f.values, v.IsShaped false
  distinct : (f.descriptors.map fun d => foldProperty d.name).Nodup

/-- No prefix is bound twice. -/
structure Document.IsShaped (d : Document) : Prop where
  distinct : (d.namespaces.map Namespace.key).Nodup
  fontFaces : ∀ f ∈ d.fontFaces, f.IsShaped
  rules : ∀ r ∈ d.rules, r.IsShaped

/-! ## What a document says -/

/-- A compound without what was looked up for it. -/
def Compound.bare (c : Compound) : Compound := { c with nsAddress := none }

def Selector.bare (s : Selector) : Selector :=
  { s with compounds := s.compounds.map Compound.bare, span := .nowhere }

def Declaration.bare (d : Declaration) : Declaration := { d with span := .nowhere }

def Rule.bare (r : Rule) : Rule :=
  { r with
    selectors := r.selectors.map Selector.bare
    declarations := r.declarations.map Declaration.bare
    span := .nowhere }

def FontFace.bare (f : FontFace) : FontFace := ⟨f.descriptors.map Declaration.bare, .nowhere⟩

def Namespace.bare (n : Namespace) : Namespace := { n with span := .nowhere }

/-- A document without the name of its source, the places of its parts, and the addresses that were
    looked up for prefixes. -/
def Document.bare (d : Document) : Document where
  sourceName := ""
  span := .nowhere
  namespaces := d.namespaces.map Namespace.bare
  fontFaces := d.fontFaces.map FontFace.bare
  rules := d.rules.map Rule.bare

/-! ## What is rendered

The text of a document shows nothing that is left out of the bare one. -/

theorem Compound.toText_bare (c : Compound) : c.bare.toText = c.toText := rfl

theorem Selector.tailText_bare (ks : List Combinator) (cs : List Compound) :
    tailText ks (cs.map Compound.bare) = tailText ks cs := by
  induction cs generalizing ks with
  | nil => cases ks <;> rfl
  | cons c cs ih => cases ks <;> rw [List.map_cons, tailText, tailText, ih, Compound.toText_bare]

theorem Selector.toText_bare (s : Selector) : s.bare.toText = s.toText := by
  obtain ⟨cs, ks, span⟩ := s
  cases cs with
  | nil => rfl
  | cons c cs =>
    show c.bare.toText ++ tailText ks (cs.map Compound.bare) = c.toText ++ tailText ks cs
    rw [tailText_bare, Compound.toText_bare]

theorem Declaration.blockText_bare (head : String) (ds : List Declaration) :
    blockText head (ds.map Declaration.bare) = blockText head ds := by
  rw [blockText, blockText, List.map_map]
  rfl

theorem Rule.styleText_bare (r : Rule) : r.bare.styleText = r.styleText := by
  have hs : r.bare.selectors.map Selector.toText = r.selectors.map Selector.toText := by
    rw [bare, List.map_map]
    exact List.map_congr_left fun s _ => s.toText_bare
  rw [styleText, hs, bare, Declaration.blockText_bare]
  rfl

theorem Rule.toText_bare (r : Rule) : r.bare.toText = r.toText := by
  rw [toText, toText, styleText_bare]
  rfl

theorem Document.render_bare (d : Document) : d.bare.render = d.render := by
  have hn : d.bare.namespaces.map Namespace.toText = d.namespaces.map Namespace.toText := by
    rw [bare, List.map_map]
    rfl
  have hf : d.bare.fontFaces.map FontFace.toText = d.fontFaces.map FontFace.toText := by
    rw [bare, List.map_map]
    exact List.map_congr_left fun f _ => Declaration.blockText_bare "@font-face" f.descriptors
  have hr : d.bare.rules.map Rule.toText = d.rules.map Rule.toText := by
    rw [bare, List.map_map]
    exact List.map_congr_left fun r _ => r.toText_bare
  rw [render, render, hn, hf, hr]

end Stylesheet
