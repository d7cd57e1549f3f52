import Stylesheet.Proofs.Reading.Shape
import Stylesheet.Proofs.Written.Document

/-!
# The shape of selectors that are read

From conditions to the selectors of a rule. Every condition reads as one, so a compound without an
element has a condition; a prefix stands in front of an element; and compounds have a combinator
between any two.
-/

namespace Stylesheet

open Computability Grammar Stylesheet.Tree

/-- White space is cut off at the ends, and nothing else. -/
theorem mem_trimmed {c : Char} {cs : List Char} (h : c ∈ cs) (hw : isWhiteSpace c = false) :
    c ∈ trimmed cs := by
  have keep (cs : List Char) (h : c ∈ cs) : c ∈ cs.dropWhile isWhiteSpace := by
    rw [← List.takeWhile_append_dropWhile (p := isWhiteSpace) (l := cs)] at h
    refine (List.mem_append.1 h).resolve_left fun ht => ?_
    rw [List.all_eq_true.1 List.all_takeWhile c ht] at hw
    contradiction
  rw [trimmed, List.mem_reverse]
  exact keep _ (List.mem_reverse.2 (keep cs h))

namespace Reading

variable {r : Reading}

/-! ## Selectors -/

/-- The argument of a function that bears the name of an address holds a quote. -/
theorem pseudoArgument_url {f c : Nat} {is : List Nat} {name : String}
    (hq : QuotedUrls (visible (r.kindsAt (f :: (is ++ [c])))))
    (hfilled : ∀ i ∈ is, ∀ u, r.tokens[i]? = some u → u.kind.FilledBy u.text.toList)
    (hf : r.kind? f = some (.function name)) (hc : r.kind? c = some (.closing .paren))
    (hu : sameWord name "url" = true) :
    '"' ∈ (r.pseudoArgument (is ++ [c])).toList ∨ '\'' ∈ (r.pseudoArgument (is ++ [c])).toList := by
  rw [visible_kindsAt_cons hf (by simp), kindsAt_append, visible_append,
    visible_kindsAt_cons hc (by simp)] at hq
  cases hv : visible (r.kindsAt is) with
  | nil =>
    rw [hv] at hq
    obtain ⟨⟨s, e⟩, -⟩ := hq [] name _ _ rfl hu
    contradiction
  | cons k ks =>
    rw [hv] at hq
    obtain ⟨⟨s, rfl⟩, -⟩ := hq [] name _ _ rfl hu
    -- the string is one of the tokens of the argument, and its text has a quote
    have hm : TokenKind.string s ∈ r.kindsAt is := by
      have hm : TokenKind.string s ∈ visible (r.kindsAt is) := hv ▸ List.mem_cons_self
      exact (List.mem_filter.1 hm).1
    obtain ⟨i, hi, hk⟩ := List.mem_filterMap.1 hm
    obtain ⟨u, hu, hk⟩ := Option.map_eq_some_iff.1 hk
    have hquote := hfilled i hi u hu
    rw [hk] at hquote
    have htext : r.text i = u.text := by rw [text, hu]; rfl
    have keep (q : Char) (hw : isWhiteSpace q = false) (hm : q ∈ u.text.toList) :
        q ∈ (r.pseudoArgument (is ++ [c])).toList := by
      rw [pseudoArgument, String.toList_ofList]
      refine mem_trimmed ?_ hw
      rw [String.toList_join, List.dropLast_concat, List.flatMap_map]
      exact List.mem_flatMap.2 ⟨i, hi, htext ▸ hm⟩
    exact hquote.imp (keep _ (by decide)) (keep _ (by decide))

/-- The argument of a pseudo-class has the shape of one. -/
theorem pseudoOf?_shaped {place : Nat} {children : List Tree} {k : Condition}
    (h : Sound r (.node .pseudoSelector place children))
    (hk : r.pseudoOf? (.node .pseudoSelector place children) = some k) : k.IsShaped := by
  cases h.derived with
  | node hp _ =>
    obtain ⟨colons, element, i, is, rfl, hname, e⟩ := mem_pseudoSelector place hp
    rw [e] at hk
    rcases hname with ⟨name, hi, -⟩ | ⟨name, inner, c, hi, hc, rfl⟩
    · rw [pseudoOfName?, hi] at hk
      cases hk
      trivial
    · rw [pseudoOfName?, hi] at hk
      cases hk
      have hleaves : i :: (inner ++ [c]) <:+: (Tree.node .pseudoSelector place
          ((colons ++ i :: (inner ++ [c])).map Tree.leaf)).leaves := by
        rw [leaves, leavesAmong_map_leaf]
        exact (List.suffix_append _ _).isInfix
      exact pseudoArgument_url (h.quotedUrls.infix_of ((hleaves.filterMap r.kind?).filter _))
        (fun j hj => h.filled j (hleaves.subset (by simp [hj]))) hi hc

/-- What a node stands for as a condition has the shape of one. -/
theorem conditionOf?_shaped {t : Tree} {k : Condition} (h : Sound r t)
    (hk : r.conditionOf? t = some k) : k.IsShaped := by
  unfold conditionOf? at hk
  split at hk
  · unfold idOf? at hk
    split at hk <;> cases hk
    trivial
  · obtain ⟨name, -, rfl⟩ := Option.map_eq_some_iff.1 hk
    trivial
  · rename_i ht
    obtain ⟨place, children, rfl, hp, -⟩ := h.derived.row ht
    obtain ⟨name, matcher, e⟩ := attributeOf?_some place hp
    rw [e] at hk
    cases hk
    trivial
  · rename_i ht
    cases t with
    | leaf => contradiction
    | node kind place children =>
      cases ht
      exact pseudoOf?_shaped h hk
  · contradiction

theorem elementOf?_isSome {t : Tree} (h : Derived r.tokens t) (hk : t.kind? = some .elementName) :
    (r.elementOf? t).isSome = true := by
  obtain ⟨place, children, rfl, hp, -⟩ := h.row hk
  obtain ⟨i, u, rfl, -, hi, hu⟩ := leafOf_kind? hp
  rw [elementOf?, show first (.node .elementName place [.leaf i]) = i from rfl, hi]
  cases hk : u.kind with
  | ident | asterisk => rfl
  | _ => rw [hk] at hu; contradiction

/-- A prefix stands in front of an element, and a compound without an element has a condition. -/
theorem compound_filled {t : Tree} (h : Derived r.tokens t) (hk : t.kind? = some .simpleSelector)
    (options : Options) (known : List Namespace) :
    ((r.compound options known t).result.nsPrefix.isSome = true →
      (r.compound options known t).result.element.isSome = true) ∧
      ((r.compound options known t).result.element = none →
        (r.compound options known t).result.conditions ≠ []) := by
  obtain ⟨place, children, rfl, hp, hchild⟩ := h.row hk
  obtain ⟨head, conditions, rfl, hne, hhead, hconditions⟩ := mem_simpleSelector hp
  have named (hn : ∃ t ∈ head, t.kind? = some .elementName) :
      (((Tree.node .simpleSelector place (head ++ conditions)).child? .elementName).bind
        r.elementOf?).isSome = true := by
    obtain ⟨u, hu, huk⟩ := hn
    have hfind : ((Tree.node .simpleSelector place (head ++ conditions)).child?
        .elementName).isSome = true :=
      List.find?_isSome.2 ⟨u, List.mem_append_left _ hu, beq_iff_eq.2 huk⟩
    obtain ⟨e, he⟩ := Option.isSome_iff_exists.1 hfind
    rw [he]
    obtain ⟨hm, hk⟩ := child?_eq_some he
    exact elementOf?_isSome (hchild e hm) hk
  refine ⟨fun hs => named (hhead.resolve_left ?_), fun hn => ?_⟩
  · -- a prefix is no condition
    rintro rfl
    obtain ⟨p, hp, -⟩ := Option.bind_eq_some_iff.1 (Option.isSome_iff_exists.1 hs).choose_spec
    obtain ⟨hm, hk⟩ := child?_eq_some hp
    obtain ⟨kind, hc, e⟩ := hconditions p hm
    rw [hk] at e
    cases e
    contradiction
  · have hnil : head = [] := by
      refine hhead.resolve_right fun hs => ?_
      have hsome := named hs
      rw [show ((Tree.node .simpleSelector place (head ++ conditions)).child?
        .elementName).bind r.elementOf? = none from hn] at hsome
      contradiction
    subst hnil
    obtain ⟨c, cs, rfl⟩ := List.exists_cons_of_ne_nil hne
    obtain ⟨kind, hm, e⟩ := hconditions c List.mem_cons_self
    obtain ⟨k, hk⟩ := conditionOf?_some (hchild c List.mem_cons_self) e hm
    cases c with
    | leaf => contradiction
    | node =>
      have hmem : k ∈ (Tree.node .simpleSelector place
          (.node _ _ _ :: cs)).nodes.filterMap r.conditionOf? :=
        List.mem_filterMap.2 ⟨_, List.mem_filter.2 ⟨List.mem_cons_self, rfl⟩, hk⟩
      exact List.ne_nil_of_mem hmem

theorem compound_shaped {t : Tree} (h : Sound r t) (hk : t.kind? = some .simpleSelector)
    (options : Options) (known : List Namespace) :
    (r.compound options known t).result.IsShaped := by
  obtain ⟨helement, hfilled⟩ := compound_filled h.derived hk options known
  refine ⟨helement, hfilled, fun k hm => ?_⟩
  obtain ⟨u, hu, huk⟩ := List.mem_filterMap.1 hm
  exact conditionOf?_shaped (h.child (List.mem_filter.1 hu).1) huk

theorem selector_shaped {t : Tree} (h : Sound r t) (hk : t.kind? = some .selector)
    (options : Options) (known : List Namespace) {s : Selector}
    (hs : (r.selector options known t).result = some s) : s.IsShaped := by
  rw [selector_some h.derived hk] at hs
  cases hs
  refine ⟨?_, ?_⟩
  · rw [List.length_map, List.length_map]
    obtain ⟨place, children, rfl, hp, -⟩ := h.derived.row hk
    exact length_nodesOf_selector place hp
  · intro c hc
    obtain ⟨u, hu, rfl⟩ := List.mem_map.1 hc
    obtain ⟨hm, huk⟩ := List.mem_filter.1 hu
    exact compound_shaped (h.child hm) (beq_iff_eq.1 huk) options known

theorem selectors_shaped {t : Tree} (h : Sound r t) (options : Options) (known : List Namespace) :
    ∀ s ∈ (r.selectors options known t).result, s.IsShaped := by
  rw [selectors, Noted.collect?_result]
  intro s hs
  obtain ⟨u, hu, e⟩ := List.mem_filterMap.1 hs
  obtain ⟨hm, hk⟩ := List.mem_filter.1 hu
  exact selector_shaped (h.child hm) (beq_iff_eq.1 hk) options known e

end Reading

end Stylesheet
