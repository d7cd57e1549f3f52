import Stylesheet.Proofs.Problem.Outcome
import Stylesheet.Proofs.Reading.Namespaces
import Stylesheet.Proofs.Tree.Place

/-!
# The places of a document

A document is in the order of its text: its namespaces, its font faces and its rules each stand one
behind the other, and so do the selectors and the declarations of a rule; what belongs to something
lies inside it (`Document.InOrder`). Each of them has the span of a node, so this is the order of the
nodes (`Tree.Fits.spans`), for every text that gives a document (`parseText_inOrder`).
-/

namespace Stylesheet

open Grammar Stylesheet.Tree

/-- The selectors and the declarations of a rule stand in it, each one behind the other. -/
structure Rule.InOrder (x : Rule) : Prop where
  selectors : (x.selectors.map Selector.span).Pairwise Span.Precedes
  selectors_inside : ∀ s ∈ x.selectors, s.span.Inside x.span
  declarations : (x.declarations.map Declaration.span).Pairwise Span.Precedes
  declarations_inside : ∀ d ∈ x.declarations, d.span.Inside x.span

/-- The parts of a document stand in it, those of each sort one behind the other. -/
structure Document.InOrder (d : Document) : Prop where
  namespaces : (d.namespaces.map Namespace.span).Pairwise Span.Precedes
  namespaces_inside : ∀ n ∈ d.namespaces, n.span.Inside d.span
  fontFaces : (d.fontFaces.map FontFace.span).Pairwise Span.Precedes
  fontFaces_inside : ∀ f ∈ d.fontFaces, f.span.Inside d.span
  descriptors_inside : ∀ f ∈ d.fontFaces, ∀ e ∈ f.descriptors, e.span.Inside f.span
  rules : (d.rules.map Rule.span).Pairwise Span.Precedes
  rules_inside : ∀ x ∈ d.rules, x.span.Inside d.span
  rules_inOrder : ∀ x ∈ d.rules, x.InOrder

section

variable {α β γ : Type} {R : α → β → Prop} {l : List α} {m : List β}

theorem map_sublist_of_forall₂ (h : List.Forall₂ R l m) {f : α → γ} {g : β → γ}
    (hfg : ∀ a b, R a b → g b = f a) : (m.map g).Sublist (l.map f) := by
  have e : l.map f = m.map g := by
    rw [← List.forall₂_eq_eq_eq, List.forall₂_map_left_iff, List.forall₂_map_right_iff]
    exact h.imp fun a b hr => (hfg a b hr).symm
  rw [e]

theorem exists_of_forall₂ (h : List.Forall₂ R l m) {b : β} (hb : b ∈ m) : ∃ a ∈ l, R a b := by
  induction h with
  | nil => contradiction
  | @cons a _ _ _ hr _ ih =>
    rcases List.mem_cons.1 hb with rfl | hb
    · exact ⟨a, List.mem_cons_self, hr⟩
    · obtain ⟨a', ha, hr'⟩ := ih hb
      exact ⟨a', List.mem_cons_of_mem a ha, hr'⟩

end

/-! ## Nodes -/

/-- The style rules of a statement are all style rules in it. -/
theorem statementRules_eq {tokens : List Token} {t : Tree} {kind : NodeKind} (h : Derived tokens t)
    (hk : t.kind? = some kind) (hs : kind ∈ childKinds .stylesheet) :
    t.statementRules.map Prod.fst = t.nodesBelow [.rule] := by
  rw [statementRules, hk]
  cases kind with
  | rule =>
    obtain ⟨place, children, rfl, -, -⟩ := h.row hk
    have hnone : children.flatMap (nodesBelow [.rule]) = [] :=
      List.flatMap_eq_nil_iff.2 (h.nodesBelow_child_eq_nil hk (by decide))
    exact (nodesBelow_self List.mem_cons_self hnone).symm
  | mediaRule =>
    have hbelow : t.nodesBelow [.rule] = t.nodesOf .rule :=
      h.nodesBelow_eq_nodesOf hk (by decide) (by decide)
    rw [hbelow, List.map_map]
    exact List.map_id _
  | namespaceRule | fontFaceRule | unknownAtRule | error =>
    have hnone : t.nodesBelow [.rule] = [] := h.nodesBelow_eq_nil hk (by decide) (by decide)
    rw [hnone]
    rfl
  | _ => contradiction

/-- The style rules of a stylesheet are all style rules in it. -/
theorem styleRules_eq {tokens : List Token} {t : Tree} (h : Derived tokens t)
    (hk : t.kind? = some .stylesheet) : t.styleRules.map Prod.fst = t.nodesBelow [.rule] := by
  obtain ⟨place, children, rfl, -, -⟩ := h.row hk
  have hleaf (c : Tree) (hn : c.isNode = false) : c.nodesBelow [.rule] = [] := by
    cases c with
    | leaf => rfl
    | node => contradiction
  rw [styleRules, List.map_flatMap, nodesBelow_node (by decide),
    ← flatMap_filter_eq (p := isNode) fun c _ => hleaf c]
  refine List.flatMap_congr fun c hc => ?_
  obtain ⟨hd, kind, hs, hc'⟩ := h.of_mem_nodes hk hc
  exact statementRules_eq hd hc' hs

namespace Reading

variable {r : Reading}

theorem declaration_span {t : Tree} {d : Declaration} (h : (r.declaration t).result = some d) :
    d.span = r.spanOf t := by
  unfold declaration at h
  split at h
  · rw [Noted.bind_result, Noted.pure_result] at h
    obtain ⟨v, -, rfl⟩ := Option.map_eq_some_iff.1 h
    rfl
  · contradiction

/-- The namespaces of some statements are those of some of their namespace rules. -/
theorem statements_namespaces (options : Options) (known : List Namespace) (ts : List Tree) :
    ((r.statements options known ts).namespaces.map Namespace.span).Sublist
      ((ts.filter (isOf [.namespaceRule])).map r.spanOf) := by
  induction ts generalizing known with
  | nil => exact .slnil
  | cons t ts ih =>
    have hone : ((r.statement options known t).namespaces.map Namespace.span).Sublist
        (([t].filter (isOf [.namespaceRule])).map r.spanOf) := by
      rw [statement_namespaces]
      split
      · rename_i hk
        rw [List.filter_cons_of_pos (isOf_iff.2 ⟨_, by simp, hk⟩), namespaceRule_namespaces]
        refine (List.filter_sublist.map _).trans ?_
        rw [binding?]
        cases t.tokens.findSome? r.address? with
        | none => exact List.nil_sublist _
        | some address => exact List.Sublist.refl _
      · exact List.nil_sublist _
    rw [show t :: ts = [t] ++ ts from rfl, List.filter_append, List.map_append]
    show (((r.statement options known t).namespaces ++ _).map _).Sublist _
    rw [List.map_append]
    exact hone.append (ih _)

@[simp] theorem fontFace_span (t : Tree) : (r.fontFace t).result.span = r.spanOf t := by
  unfold fontFace
  cases t.child? .declarationBlock <;> rfl

end Reading

/-! ## Documents -/

section

variable {source : String} {tokens : List Token} (hin : InText tokens)
include hin

theorem Reading.ReadsRule.inOrder {t : Tree × List Tree} {x : Rule}
    (h : (⟨source, tokens⟩ : Reading).ReadsRule t x) (ht : Fits tokens t.1) : x.InOrder := by
  obtain ⟨hs, hsi⟩ := ht.spans hin .selector (by decide) (by decide)
    (map_sublist_of_forall₂ h.selectors fun u s hs => hs.span)
  obtain ⟨hd, hdi⟩ := ht.spans hin .declaration (by decide) (by decide)
    (map_sublist_of_forall₂ h.declarations fun u d hd => Reading.declaration_span hd)
  have hspan : x.span = t.1.span tokens := h.span
  rw [← hspan] at hsi hdi
  exact ⟨hs, hsi, hd, hdi⟩

theorem buildDocument_inOrder (options : Options) :
    (buildDocument source tokens (parseTokens source tokens).tree options).document.InOrder := by
  have ht := fits_parseTokens source tokens
  have hk : (parseTokens source tokens).tree.kind? = some .stylesheet := rfl
  generalize (parseTokens source tokens).tree = tree at ht hk
  have hd := ht.derived
  have hbelow {kind : NodeKind} {u : Tree} (hu : u ∈ tree.nodesBelow [kind]) : u ∈ tree.subtrees :=
    (List.mem_filter.1 hu).1
  obtain ⟨hreads, hfaces, -⟩ := Reading.statements_reads (r := ⟨source, tokens⟩)
    (fun t hm => (hd.of_mem_nodes hk hm).1) (fun t hm => (hd.of_mem_nodes hk hm).2) options []
  have hnamespaces := Reading.statements_namespaces (r := ⟨source, tokens⟩) options [] tree.nodes
  rw [nodes_filter_isOf, ← hd.nodesBelow_eq_filter hk (by decide) (by decide)] at hfaces hnamespaces
  -- the parts of each sort have the places of nodes of one kind, so the order of these is theirs
  have hfaceSpans : ((Reading.statements ⟨source, tokens⟩ options [] tree.nodes).fontFaces.map
      FontFace.span).Sublist ((tree.nodesBelow [.fontFaceRule]).map fun u => u.span tokens) := by
    rw [hfaces, List.map_map]
    exact (List.map_congr_left fun u _ => Reading.fontFace_span u) ▸ List.Sublist.refl _
  have hruleSpans : ((Reading.statements ⟨source, tokens⟩ options [] tree.nodes).rules.map
      Rule.span).Sublist ((tree.nodesBelow [.rule]).map fun u => u.span tokens) := by
    rw [← styleRules_eq hd hk, List.map_map]
    exact map_sublist_of_forall₂ hreads fun u x hx => hx.span
  obtain ⟨hn, hni⟩ := ht.spans hin .namespaceRule (by decide) (by decide) hnamespaces
  obtain ⟨hf, hfi⟩ := ht.spans hin .fontFaceRule (by decide) (by decide) hfaceSpans
  obtain ⟨hr, hri⟩ := ht.spans hin .rule (by decide) (by decide) hruleSpans
  refine ⟨hn, hni, hf, hfi, fun f hm e he => ?_, hr, hri, fun x hx => ?_⟩
  · obtain ⟨u, hu, rfl⟩ : ∃ u ∈ tree.nodesBelow [.fontFaceRule],
        (Reading.fontFace ⟨source, tokens⟩ u).result = f := List.mem_map.1 (hfaces ▸ hm)
    obtain ⟨v, hv, -, hread⟩ := Reading.exists_of_descriptor he
    rw [Reading.declaration_span hread, Reading.fontFace_span]
    exact (ht.subtree (hbelow hu)).inside hin hv
  · obtain ⟨s, hs, hx⟩ := exists_of_forall₂ hreads hx
    have hmem : s.1 ∈ tree.nodesBelow [.rule] := by
      rw [← styleRules_eq hd hk]
      exact List.mem_map_of_mem hs
    exact hx.inOrder hin (ht.subtree (hbelow hmem))

end

/-- Every text that gives a document gives one in the order of the text. -/
theorem parseText_inOrder {source text : String} {options : Options} {d : Document}
    (h : (parseText source text options).document = some d) : d.InOrder := by
  cases hdeep : (tokenize source text.toList options).tooDeep with
  | some e =>
    rw [(parseText_tooDeep hdeep).1] at h
    contradiction
  | none =>
    rw [(parseText_document hdeep).1] at h
    cases h
    exact buildDocument_inOrder (inText_tokenize hdeep) options

/-- A statement of each sort that gives something; the last block has no end. -/
def placedText : String :=
  "@namespace \"u\"; @font-face \x7b src: a \x7d\n@media print \x7b a, b \x7b top: 1 \x7d \x7d\n" ++
    "q \x7b top: 1; left"

/-- The rule without an end stands behind the one in the media rule, up to the end of the text. -/
theorem parseText_inOrder_placedText :
    ∃ d, (parseText "placed.css" placedText .standard).document = some d ∧ d.InOrder ∧
      d.rules.map Rule.span = [⟨⟨2, 16⟩, ⟨2, 31⟩⟩, ⟨⟨3, 1⟩, ⟨3, 17⟩⟩] := by
  have hrules : (parseText "placed.css" placedText .standard).document.map
      (fun d => d.rules.map Rule.span) = some [⟨⟨2, 16⟩, ⟨2, 31⟩⟩, ⟨⟨3, 1⟩, ⟨3, 17⟩⟩] := by
    decide +kernel
  obtain ⟨d, hd, hspans⟩ := Option.map_eq_some_iff.1 hrules
  exact ⟨d, hd, parseText_inOrder hd, hspans⟩

end Stylesheet
