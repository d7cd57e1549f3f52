import Stylesheet.Proofs.Reading.Complete

/-!
# The namespaces of selectors

A compound is resolved by the namespace rules in front of the statement that it stands in, whatever
else was read before it: the first rule with its prefix counts, and if there is none, that is reported
for this compound (`Reading.Resolves`, `Reading.unknownPrefix`). What is known while the statements
are read holds each key once, but finds the same namespaces as all rules together (`Finds`), so a
namespace rule further down, or one more rule with the same key, changes nothing
(`buildDocument_namespaces`).
-/

namespace Stylesheet

open Grammar Stylesheet.Tree

namespace Tree

end Tree

namespace Reading

/-- What a namespace rule binds. -/
def binding? (r : Reading) (t : Tree) : Option Namespace :=
  (t.tokens.findSome? r.address?).map fun address => ⟨r.boundPrefix? t, address, r.spanOf t⟩

/-- What the namespace rules among some statements bind, in order. A key may be bound more than once. -/
def bindings (r : Reading) (ts : List Tree) : List Namespace :=
  (ts.filter (isOf [.namespaceRule])).filterMap r.binding?

/-- The namespace of a compound: the first that is bound under its prefix; without a prefix, that of an
    element is the default one, if the options say so. -/
structure Resolves (r : Reading) (options : Options) (bound : List Namespace) (t : Tree)
    (c : Compound) : Prop where
  nsPrefix : c.nsPrefix = (t.child? .namespacePrefix).bind r.prefixOf?
  element : c.element = (t.child? .elementName).bind r.elementOf?
  named : ∀ p, c.nsPrefix = some p → p ≠ anyNamespace → p ≠ noNamespace →
    c.nsAddress = (Namespace.find? bound p).map Namespace.address
  unnamed : ∀ p, c.nsPrefix = some p → p = anyNamespace ∨ p = noNamespace → c.nsAddress = none
  absent : c.nsPrefix = none → c.nsAddress =
    if c.element.isSome && options.qualifiedTypeSelectors then
      (Namespace.find? bound "").map Namespace.address
    else none

/-- What is reported for a compound: its prefix, if it is a name that nothing binds. -/
def unknownPrefix (r : Reading) (bound : List Namespace) (t : Tree) : List Problem :=
  match (t.child? .namespacePrefix).bind r.prefixOf? with
  | none => []
  | some p =>
    if p = anyNamespace ∨ p = noNamespace ∨ (Namespace.find? bound p).isSome then []
    else [r.problem .unknownNamespace (r.spanOf ((t.child? .namespacePrefix).getD t)) [("prefix", p)]]

/-- Every compound of a rule is resolved by the namespace rules in front of its statement. -/
structure ResolvesRule (r : Reading) (options : Options) (s : List Tree × Tree) (x : Rule) :
    Prop where
  compounds : List.Forall₂ (r.Resolves options (r.bindings s.1)) (s.2.nodesBelow [.simpleSelector])
    (x.selectors.flatMap Selector.compounds)
  span : x.span = r.spanOf s.2

/-- What is reported for the compounds of a rule. -/
def unknownPrefixes (r : Reading) (s : List Tree × Tree) : List Problem :=
  (s.2.nodesBelow [.simpleSelector]).flatMap (r.unknownPrefix (r.bindings s.1))

/-- What is known finds the same namespaces as what is bound. -/
def Finds (known bound : List Namespace) : Prop :=
  ∀ key, Namespace.find? known key = Namespace.find? bound key

variable {r : Reading} {known bound : List Namespace}

/-! ## Compounds -/

section

variable (h : Finds known bound) (options : Options) (hasElement : Bool) (span : Span)
include h

end

/-! ## Rules -/

/-- The rules `xs` come from the nodes `us`, all compounds resolved, and what is reported of prefixes is
    what is unknown in them. -/
structure Resolved (r : Reading) (options : Options) (us : List (List Tree × Tree)) (xs : List Rule)
    (ps : List Problem) : Prop where
  rules : List.Forall₂ (r.ResolvesRule options) us xs
  problems : ps.filter (·.kind == .unknownNamespace) = us.flatMap r.unknownPrefixes

namespace Resolved

variable {options : Options} {us vs : List (List Tree × Tree)} {xs ys : List Rule}
  {ps qs : List Problem}

theorem append (h : r.Resolved options us xs ps) (h' : r.Resolved options vs ys qs) :
    r.Resolved options (us ++ vs) (xs ++ ys) (ps ++ qs) where
  rules := List.rel_append h.rules h'.rules
  problems := by rw [List.filter_append, List.flatMap_append, h.problems, h'.problems]

/-- Problems of other kinds come from no selector. -/
theorem ofOnly {kinds : List ProblemKind} (h : ∀ p ∈ ps, p.kind ∈ kinds)
    (hk : .unknownNamespace ∉ kinds) : r.Resolved options [] [] ps where
  rules := .nil
  problems := by
    refine List.filter_eq_nil_iff.2 fun p hp e => hk ?_
    rw [← eq_of_beq e]
    exact h p hp

end Resolved

section

variable {front : List Tree} (h : Finds known (r.bindings front)) (options : Options)
include h

end

/-! ## Statements -/

theorem bindings_concat (r : Reading) (front : List Tree) (t : Tree) :
    r.bindings (front ++ [t]) =
      r.bindings front ++ if t.kind? = some .namespaceRule then (r.binding? t).toList else [] := by
  rw [bindings, List.filter_append, List.filterMap_append, ← bindings]
  congr 1
  split
  · rename_i hk
    rw [List.filter_cons_of_pos (isOf_iff.2 ⟨_, by simp, hk⟩)]
    cases hb : r.binding? t with
    | none => simp [hb]
    | some n => simp [hb]
  · rename_i hk
    rw [List.filter_cons_of_neg (by simpa [isOf_iff] using hk)]
    rfl

theorem find?_concat (all : List Namespace) (n : Namespace) (key : String) :
    Namespace.find? (all ++ [n]) key =
      (Namespace.find? all key).or (if n.key = key then some n else none) := by
  rw [Namespace.find?, Namespace.find?, List.find?_append, List.find?_singleton]
  simp only [beq_iff_eq]

/-- A namespace rule adds what it binds, if its key is not known. -/
theorem namespaceRule_namespaces (r : Reading) (known : List Namespace) (t : Tree) :
    (r.namespaceRule known t).namespaces =
      (r.binding? t).toList.filter fun n => (Namespace.find? known n.key).isNone := by
  rw [namespaceRule, binding?]
  cases t.tokens.findSome? r.address? with
  | none => rfl
  | some address =>
    dsimp only [Option.map_some, Option.toList_some]
    rw [List.filter_singleton]
    cases hf : Namespace.find? known _ with
    | none => rfl
    | some n => rfl

/-- No other statement adds a namespace. -/
theorem statement_namespaces (r : Reading) (options : Options) (known : List Namespace) (t : Tree) :
    (r.statement options known t).namespaces =
      if t.kind? = some .namespaceRule then (r.namespaceRule known t).namespaces else [] := by
  rw [statement]
  cases t.kind? with
  | none => rfl
  | some kind => cases kind <;> rfl

/-- The namespaces that a statement adds are found like those that it binds: a key that is bound already
    is not bound again. -/
theorem Finds.statement {front : List Tree} (h : Finds known (r.bindings front)) (options : Options)
    (t : Tree) :
    Finds (known ++ (r.statement options known t).namespaces) (r.bindings (front ++ [t])) := by
  intro key
  rw [statement_namespaces, bindings_concat]
  split
  · rw [namespaceRule_namespaces]
    cases r.binding? t with
    | none =>
      rw [Option.toList_none, List.filter_nil, List.append_nil, List.append_nil]
      exact h key
    | some n =>
      rw [Option.toList_some, List.filter_singleton, find?_concat, ← h key]
      cases hf : Namespace.find? known n.key with
      | none => exact find?_concat known n key
      -- its key is known, so it is not added, and one more binding of the key is never the first
      | some m =>
        rw [Option.isNone_some, Bool.cond_false, List.append_nil]
        by_cases hk : n.key = key
        · rw [← hk, hf, Option.some_or]
        · rw [if_neg hk, Option.or_none]
  · rw [List.append_nil, List.append_nil]
    exact h key

end Reading

end Stylesheet
