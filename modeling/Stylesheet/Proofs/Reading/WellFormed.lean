import Stylesheet.Proofs.Reading.Places
import Stylesheet.Proofs.Reading.QueryShape

/-!
# Documents are well formed

The types of a document allow more than a tree can say: rules without a selector, selectors whose
compounds are not joined, queries that ask for nothing, lists in lists that bind tighter. None of this
is ever read, whatever the tokens are (`buildDocument_isWellFormed`). Each clause comes from the
production of a node, and what is said of values from the grouping of their terms
(`Value.combine_isWellFormed`).
-/

namespace Stylesheet

open Grammar Stylesheet.Tree

namespace Value

/-- Whether a value may be an item of a list: no list at all between slashes, between blanks only one
    with slashes, and between commas none with commas. -/
def fits : Separator → Value → Bool
  | .slash, .list _ _ => false
  | .space, .list s _ => s == .slash
  | .comma, .list s _ => s != .comma
  | _, _ => true

mutual

/-- A list has two items or more, all of which fit into it, and arguments fit between commas. What is
    `named` is no list and not named itself, and stands among arguments or in lists among them. -/
def IsWellFormed (named : Bool) : Value → Prop
  | .list separator items => 2 ≤ items.length ∧ WellFormedItems named separator items
  | .call _ arguments => WellFormedItems true .comma arguments
  | .named _ v => named = true ∧ v.fits .slash = true ∧ IsWellFormed false v
  | _ => True

/-- Well-formed values that fit between separators. -/
def WellFormedItems (named : Bool) (separator : Separator) : List Value → Prop
  | [] => True
  | v :: rest =>
    v.fits separator = true ∧ IsWellFormed named v ∧ WellFormedItems named separator rest

end

/-- An item fits if it binds tighter than the list. -/
theorem fits_iff {s : Separator} {v : Value} : v.fits s = true ↔ s.strength < v.rank := by
  cases v with
  | list t items => cases s <;> cases t <;> simp [fits, rank, Separator.strength]
  | _ => cases s <;> simp [fits, rank, Separator.strength]

theorem wellFormedItems_of_forall {named : Bool} {s : Separator} {items : List Value}
    (h : ∀ v ∈ items, v.fits s = true ∧ v.IsWellFormed named) : WellFormedItems named s items := by
  induction items with
  | nil => exact trivial
  | cons v items ih =>
    obtain ⟨⟨hf, hv⟩, hi⟩ := List.forall_mem_cons.1 h
    exact ⟨hf, hv, ih hi⟩

/-- Well-formed items that are no lists come together as a well-formed value. -/
theorem combine_isWellFormed {named : Bool} {v : Value} {items : List (Separator × Value)}
    (hv : v.IsWellFormed named ∧ v.rank = 3)
    (hi : ∀ p ∈ items, p.2.IsWellFormed named ∧ p.2.rank = 3) :
    (combine v items).IsWellFormed named := by
  have h := combine_induction (P := fun strength _ _ w => w.IsWellFormed named ∧ strength ≤ w.rank)
    (fun h => ⟨h.1, Nat.le_of_succ_le h.2⟩) (fun s inner v more g others h => ?_)
    (fun v (h : v.IsWellFormed named ∧ v.rank = 3) => ⟨h.1, Nat.le_of_eq h.2.symm⟩) hv hi
  · exact h.1
  · refine ⟨⟨by simp, wellFormedItems_of_forall fun w hw => ?_⟩, Nat.le_refl _⟩
    obtain ⟨k, hk, rfl⟩ := List.mem_map.1 hw
    exact ⟨fits_iff.2 (h k hk).2, (h k hk).1⟩

/-- What a well-formed value stands for as arguments. -/
theorem wellFormedItems_commaItems {named : Bool} {v : Value} (h : v.IsWellFormed named) :
    WellFormedItems named .comma v.commaItems := by
  unfold commaItems
  split
  · rw [IsWellFormed] at h
    exact h.2
  · rename_i hn
    refine ⟨?_, h, trivial⟩
    cases v with
    | list s items =>
      cases s with
      | comma => exact absurd rfl (hn items)
      | space | slash => rfl
    | _ => rfl

theorem ofCall_isWellFormed {name : String} {arguments : List Value}
    (h : WellFormedItems true .comma arguments) (named : Bool) :
    (ofCall name arguments).IsWellFormed named ∧ (ofCall name arguments).rank = 3 := by
  unfold ofCall
  split
  · exact ⟨trivial, rfl⟩
  · exact ⟨h, rfl⟩

end Value

/-- Compounds, at least one, with a combinator between any two. A compound names an element or has a
    condition, and where it has a prefix it names an element. -/
structure Selector.IsWellFormed (s : Selector) : Prop where
  joined : s.compounds.length = s.combinators.length + 1
  filled : ∀ c ∈ s.compounds, c.element.isSome = true ∨ c.conditions ≠ []
  named : ∀ c ∈ s.compounds, c.nsPrefix.isSome = true → c.element.isSome = true

/-- A query names a medium or has a feature, a qualifier stands with a medium, and no medium is called
    `and` in any case. -/
structure MediaQuery.IsWellFormed (q : MediaQuery) : Prop where
  filled : q.mediaType.isSome = true ∨ q.features ≠ []
  qualified : q.qualifier.isSome = true → q.mediaType.isSome = true
  medium : ∀ m ∈ q.mediaType, sameWord m "and" = false

structure Rule.IsWellFormed (x : Rule) : Prop where
  filled : x.selectors ≠ []
  selectors : ∀ s ∈ x.selectors, s.IsWellFormed
  media : ∀ q ∈ x.media, q.IsWellFormed

/-- The rules are well formed, and so are the values of declarations, descriptors and features. -/
structure Document.IsWellFormed (d : Document) : Prop where
  rules : ∀ x ∈ d.rules, x.IsWellFormed
  values : ∀ v ∈ d.values, v.IsWellFormed false

namespace Reading

variable {r : Reading}

/-! ## Values -/

section

variable {P : Bool → Tree → Value → Prop} {named : Bool}

/-- What holds of the terms of a row and their values holds of all that is read of the row. -/
theorem row_terms {ts : List Tree} (hrow : ts ∈ valueRow (leafOf r.tokens) named)
    (ht : ∀ t ∈ ts, [t] ∈ termRow named → ∀ v ∈ (r.term t).result, P named t v) :
    ∀ p ∈ (r.row none ts).result, ∃ t ∈ ts, P named t p.2 := by
  obtain ⟨first, rest, rfl, hfirst, hrest, -⟩ := mem_valueRow hrow
  refine row_forall (P := fun v => ∃ t ∈ first :: rest, P named t v) ?_ none
  refine List.forall_mem_cons.2 ⟨fun _ v hv => ?_, fun t hm hn v hv => ?_⟩
  · exact ⟨first, List.mem_cons_self, ht first List.mem_cons_self hfirst v hv⟩
  · have hm' := List.mem_cons_of_mem first hm
    exact ⟨t, hm', ht t hm' ((hrest t hm).resolve_left (by simp [hn])) v hv⟩

variable
  (literal : ∀ (named : Bool) (t : Tree) (i : Nat), ∀ v ∈ (r.literal i).result, P named t v)
  (empty : ∀ (named : Bool) (place f c : Nat) (name : String),
    P named (.node .functionCall place [.leaf f, .leaf c]) (Value.ofCall name []))
  (call : ∀ (named : Bool) (place f place' c : Nat) (name : String) (ts : List Tree)
    (p : Separator × Value) (items : List (Separator × Value)),
    (∀ q ∈ p :: items, ∃ t ∈ ts, P true t q.2) →
    P named (.node .functionCall place [.leaf f, .node .value place' ts, .leaf c])
      (Value.ofCall name (Value.combine p.2 items).commaItems))
  (argument : ∀ (place i e : Nat) (t : Tree) (name : String) (v : Value), P false t v →
    P true (.node .namedArgument place [.leaf i, .leaf e, t]) (.named name v))

include literal empty call argument

/-- What holds of literals, and of calls and named arguments if it holds of the terms in them, holds of
    every term with its value, and of those directly below it. -/
theorem term_induction {t : Tree} (h : Derived r.tokens t) :
    (∀ named, [t] ∈ termRow named → ∀ v ∈ (r.term t).result, P named t v) ∧
      ∀ u ∈ t.children, ∀ named, [u] ∈ termRow named → ∀ v ∈ (r.term u).result, P named u v := by
  -- the terms of a call stand two levels below it, in its value, so the children are carried along
  induction h with
  | leaf => exact ⟨fun _ hk => absurd hk leaf_not_mem, fun u hu => absurd hu List.not_mem_nil⟩
  | @node kind place children hp hs ih =>
    refine ⟨fun named hk v hv => ?_, fun u hu => (ih u hu).1⟩
    rcases mem_termRow hk with rfl | rfl | ⟨rfl, rfl⟩
    · rw [term] at hv
      exact literal named _ _ v hv
    · obtain ⟨f, name, row, c, rfl, hf, -, hrow⟩ := mem_functionCall hp
      rw [term_call hf, Noted.bind_result, Noted.pure_result] at hv
      obtain ⟨values, ha, rfl⟩ := Option.map_eq_some_iff.1 hv
      rcases hrow with rfl | ⟨place', ts, rfl, hts⟩
      · cases ha
        exact empty named place f c name
      · have hvalue : Tree.node .value place' ts ∈
            Tree.leaf f :: ([.node .value place' ts] ++ [.leaf c]) := by simp
        have hitems := row_terms hts fun t ht => (ih _ hvalue).2 t ht true
        cases he : (r.row none ts).result with
        | nil =>
          rw [List.singleton_append, arguments, Noted.bind_result, he] at ha
          contradiction
        | cons p items =>
          rw [List.singleton_append, (arguments_value place' [.leaf c] he).1] at ha
          cases ha
          rw [he] at hitems
          exact call named place f place' c name ts p items hitems
    · obtain ⟨i, name, e, u, rfl, hi, hu⟩ := mem_namedArgument hp
      rw [term_named hi (isNode_of_termRow hu), Noted.bind_result, Noted.pure_result] at hv
      obtain ⟨w, hw, rfl⟩ := Option.map_eq_some_iff.1 hv
      exact argument place i e u name w ((ih u (by simp)).1 false hu w hw)

/-- A value comes together from items of which it holds. -/
theorem value_items {place : Nat} {ts : List Tree} (h : Derived r.tokens (.node .value place ts))
    (hrow : ts ∈ valueRow (leafOf r.tokens) named) {v : Value}
    (hv : (r.value (.node .value place ts)).result = some v) :
    ∃ p items, v = Value.combine p.2 items ∧ ∀ q ∈ p :: items, ∃ t ∈ ts, P named t q.2 := by
  have hitems := row_terms hrow fun t ht =>
    (term_induction literal empty call argument h).2 t ht named
  rw [value, Noted.bind_result, Tree.children] at hv
  cases he : (r.row none ts).result with
  | nil =>
    rw [he] at hv
    contradiction
  | cons p items =>
    rw [he] at hv hitems
    cases hv
    exact ⟨p, items, rfl, hitems⟩

end

theorem literal_isWellFormed (i : Nat) (named : Bool) :
    ∀ v ∈ (r.literal i).result, v.IsWellFormed named ∧ v.rank = 3 := by
  intro v hv
  unfold literal at hv
  split at hv
  · contradiction
  · split at hv
    case h_7 =>
      cases hv
      unfold hashValue
      split <;> exact ⟨trivial, rfl⟩
    case h_8 => contradiction
    all_goals
      cases hv
      exact ⟨trivial, rfl⟩

/-- Every term is read as a well-formed value that is no list, so the terms of a value come together as a
    well-formed one. -/
theorem value_isWellFormed {place : Nat} {ts : List Tree} {named : Bool}
    (h : Derived r.tokens (.node .value place ts)) (hrow : ts ∈ valueRow (leafOf r.tokens) named)
    {v : Value} (hv : (r.value (.node .value place ts)).result = some v) : v.IsWellFormed named := by
  have together {named : Bool} {ts : List Tree} {p : Separator × Value}
      {items : List (Separator × Value)}
      (hi : ∀ q ∈ p :: items, ∃ _t ∈ ts, q.2.IsWellFormed named ∧ q.2.rank = 3) :
      (Value.combine p.2 items).IsWellFormed named := by
    obtain ⟨⟨-, -, hp⟩, hi⟩ := List.forall_mem_cons.1 hi
    exact Value.combine_isWellFormed hp fun q hq => (hi q hq).elim fun _ hq => hq.2
  have hnone : Value.WellFormedItems true .comma [] := trivial
  obtain ⟨p, items, rfl, hi⟩ := value_items
    (P := fun named _ v => v.IsWellFormed named ∧ v.rank = 3)
    (fun named _ i => literal_isWellFormed i named)
    (fun named _ _ _ _ => Value.ofCall_isWellFormed hnone named)
    (fun named _ _ _ _ _ _ _ _ hi =>
      Value.ofCall_isWellFormed (Value.wellFormedItems_commaItems (together hi)) named)
    (fun _ _ _ _ _ v hv => ⟨⟨rfl, Value.fits_iff.2 (by rw [hv.2]; decide), hv.1⟩, rfl⟩) h hrow hv
  exact together hi

theorem declaration_isWellFormed {t : Tree} (h : Derived r.tokens t)
    (hk : t.kind? = some .declaration) {d : Declaration}
    (hd : (r.declaration t).result = some d) : d.value.IsWellFormed false := by
  obtain ⟨place, ts, hm, hts, hv⟩ := declaration_value h hk hd
  exact value_isWellFormed (h.child hm) hts hv

/-! ## Selectors and queries -/

/-- The nodes of a kind in a derived tree. -/
theorem derived_of_nodesBelow {t u : Tree} {kind : NodeKind} (h : Derived r.tokens t)
    (hu : u ∈ t.nodesBelow [kind]) : Derived r.tokens u ∧ u.kind? = some kind := by
  obtain ⟨hu, ho⟩ := List.mem_filter.1 hu
  obtain ⟨k, hk, huk⟩ := isOf_iff.1 ho
  rw [List.mem_singleton.1 hk] at huk
  exact ⟨h.subtree hu, huk⟩

theorem compound_isWellFormed {t : Tree} {c : Compound} (h : Derived r.tokens t)
    (hk : t.kind? = some .simpleSelector) (hc : r.ReadsCompound t c) :
    (c.element.isSome = true ∨ c.conditions ≠ []) ∧
      (c.nsPrefix.isSome = true → c.element.isSome = true) := by
  have hread := compound_reads h hk .standard []
  obtain ⟨helement, hfilled⟩ := compound_filled h hk .standard []
  have hconditions : (r.compound .standard [] t).result.conditions = c.conditions :=
    List.right_unique_forall₂' (fun _ _ _ ha hb => Option.some.inj (ha.symm.trans hb))
      hread.conditions hc.conditions
  rw [hread.nsPrefix, hread.element, ← hc.nsPrefix, ← hc.element] at helement
  rw [hread.element, ← hc.element, hconditions] at hfilled
  refine ⟨?_, helement⟩
  cases he : c.element with
  | none => exact Or.inr (hfilled he)
  | some e => exact Or.inl rfl

theorem selector_isWellFormed {t : Tree} {s : Selector} (h : Derived r.tokens t)
    (hk : t.kind? = some .selector) (hs : r.ReadsSelector t s) : s.IsWellFormed := by
  have hcompound {c : Compound} (hc : c ∈ s.compounds) :
      ∃ u, Derived r.tokens u ∧ u.kind? = some .simpleSelector ∧ r.ReadsCompound u c := by
    obtain ⟨u, hu, hread⟩ := exists_of_forall₂ hs.compounds hc
    obtain ⟨hd, huk⟩ := derived_of_nodesBelow h hu
    exact ⟨u, hd, huk, hread⟩
  refine ⟨?_, fun c hc => ?_, fun c hc => ?_⟩
  · rw [← hs.compounds.length_eq, hs.combinators, List.length_map,
      h.nodesBelow_eq_nodesOf hk (by decide) (by decide),
      h.nodesBelow_eq_nodesOf hk (by decide) (by decide)]
    obtain ⟨place, children, rfl, hp, -⟩ := h.row hk
    exact length_nodesOf_selector place hp
  · obtain ⟨u, hd, huk, hread⟩ := hcompound hc
    exact (compound_isWellFormed hd huk hread).1
  · obtain ⟨u, hd, huk, hread⟩ := hcompound hc
    exact (compound_isWellFormed hd huk hread).2

theorem mediaQuery_isWellFormed {t : Tree} (h : Derived r.tokens t)
    (hk : t.kind? = some .mediaQuery) : (r.mediaQuery t).result.IsWellFormed := by
  obtain ⟨hfilled, hmedium⟩ := mediaQuery_filled h hk
  refine ⟨?_, fun hq => ?_, hmedium⟩
  · cases hm : (r.mediaQuery t).result.mediaType with
    | none => exact Or.inr (hfilled hm).2
    | some m => exact Or.inl rfl
  · cases hm : (r.mediaQuery t).result.mediaType with
    | none =>
      rw [(hfilled hm).1] at hq
      contradiction
    | some m => rfl

/-! ## Rules -/

/-- The style rules of a stylesheet are style rules, and what stands around them are queries. -/
theorem mem_styleRules {tree t : Tree} {queries : List Tree} (h : Derived r.tokens tree)
    (hm : (t, queries) ∈ tree.styleRules) : (Derived r.tokens t ∧ t.kind? = some .rule) ∧
      ∀ q ∈ queries, Derived r.tokens q ∧ q.kind? = some .mediaQuery := by
  obtain ⟨c, hc, hm⟩ := List.mem_flatMap.1 hm
  have hcd := h.child (List.mem_filter.1 hc).1
  unfold statementRules at hm
  split at hm
  · rename_i hk
    cases List.mem_singleton.1 hm
    exact ⟨⟨hcd, hk⟩, by simp⟩
  · obtain ⟨u, hu, e⟩ := List.mem_map.1 hm
    cases e
    obtain ⟨hu, huk⟩ := List.mem_filter.1 hu
    exact ⟨⟨hcd.child hu, eq_of_beq huk⟩, fun q hq => derived_of_nodesBelow hcd hq⟩
  · contradiction

theorem rule_isWellFormed {t : Tree} {queries : List Tree} {x : Rule} (h : Derived r.tokens t)
    (hk : t.kind? = some .rule)
    (hq : ∀ q ∈ queries, Derived r.tokens q ∧ q.kind? = some .mediaQuery)
    (hx : r.ReadsRule (t, queries) x) : x.IsWellFormed := by
  refine ⟨fun hnil => ?_, fun s hs => ?_, fun q hm => ?_⟩
  · -- the list of selectors has one
    obtain ⟨place, list, block, rfl, hl, hlk, -, -, -⟩ := rule_eq h hk .standard
    have hnone := hx.selectors.length_eq
    rw [hnil, nodesBelow_node (by decide), List.flatMap_cons, List.length_append,
      (selectors_reads hl hlk .standard []).length_eq] at hnone
    exact selectors_ne_nil hl hlk .standard [] (List.eq_nil_of_length_eq_zero
      (Nat.eq_zero_of_add_eq_zero_right hnone))
  · obtain ⟨u, hu, hread⟩ := exists_of_forall₂ hx.selectors hs
    obtain ⟨hd, huk⟩ := derived_of_nodesBelow h hu
    exact selector_isWellFormed hd huk hread
  · obtain ⟨u, hu, hread⟩ := exists_of_forall₂ hx.media hm
    rw [← hread.query]
    exact mediaQuery_isWellFormed (hq u hu).1 (hq u hu).2

theorem rule_values_isWellFormed {t : Tree} {queries : List Tree} {x : Rule}
    (h : Derived r.tokens t) (hq : ∀ q ∈ queries, Derived r.tokens q)
    (hx : r.ReadsRule (t, queries) x) : ∀ v ∈ x.values, v.IsWellFormed false := by
  intro v hv
  rcases List.mem_append.1 hv with hv | hv
  · obtain ⟨q, hm, hv⟩ := List.mem_flatMap.1 hv
    obtain ⟨f, hf, hv⟩ := List.mem_filterMap.1 hv
    obtain ⟨u, hu, hread⟩ := exists_of_forall₂ hx.media hm
    obtain ⟨w, hw, hfeature⟩ := exists_of_forall₂ hread.features hf
    obtain ⟨hd, hwk⟩ := derived_of_nodesBelow (hq u hu) hw
    obtain ⟨place, ts, hm, hts, hread⟩ := mediaFeature_value hd hwk hfeature hv
    exact value_isWellFormed (hd.child hm) hts hread
  · obtain ⟨d, hm, rfl⟩ := List.mem_map.1 hv
    obtain ⟨u, hu, hread⟩ := exists_of_forall₂ hx.declarations hm
    obtain ⟨hd, huk⟩ := derived_of_nodesBelow h hu
    exact declaration_isWellFormed hd huk hread

theorem fontFace_values_isWellFormed {t : Tree} (h : Derived r.tokens t) :
    ∀ v ∈ (r.fontFace t).result.values, v.IsWellFormed false := by
  intro v hv
  obtain ⟨e, he, rfl⟩ := List.mem_map.1 hv
  obtain ⟨u, hu, huk, hread⟩ := exists_of_descriptor he
  exact declaration_isWellFormed (h.subtree hu) huk hread

end Reading

/-- Whatever the tokens are, the document that is made of them is well formed. -/
theorem buildDocument_isWellFormed (source : String) (tokens : List Token) (options : Options) :
    (buildDocument source tokens (parseTokens source tokens).tree options).document.IsWellFormed := by
  have hd := derived_parseTokens source tokens
  obtain ⟨hrules, hfaces, -⟩ := buildDocument_reads source tokens options
  refine ⟨fun x hx => ?_, fun v hv => ?_⟩
  · obtain ⟨⟨t, queries⟩, ht, hread⟩ := exists_of_forall₂ hrules hx
    obtain ⟨⟨htd, htk⟩, hq⟩ := Reading.mem_styleRules (r := ⟨source, tokens⟩) hd ht
    exact Reading.rule_isWellFormed htd htk hq hread
  · rcases List.mem_append.1 hv with hv | hv
    · obtain ⟨f, hf, hv⟩ := List.mem_flatMap.1 hv
      rw [hfaces] at hf
      obtain ⟨t, ht, rfl⟩ := List.mem_map.1 hf
      have htd := (Reading.derived_of_nodesBelow (r := ⟨source, tokens⟩) hd ht).1
      exact Reading.fontFace_values_isWellFormed htd v hv
    · obtain ⟨x, hx, hv⟩ := List.mem_flatMap.1 hv
      obtain ⟨⟨t, queries⟩, ht, hread⟩ := exists_of_forall₂ hrules hx
      obtain ⟨⟨htd, -⟩, hq⟩ := Reading.mem_styleRules (r := ⟨source, tokens⟩) hd ht
      exact Reading.rule_values_isWellFormed htd (fun q hm => (hq q hm).1) hread v hv

end Stylesheet
