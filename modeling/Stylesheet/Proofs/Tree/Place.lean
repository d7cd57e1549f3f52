import Stylesheet.Proofs.Problem.Lexical
import Stylesheet.Proofs.Tree.Kinds
import Stylesheet.Proofs.Tree.Order

/-!
# Where trees stand in a text

The tokens of a text stand one behind the other, and only the `eof` behind them takes up no room
(`InText`). So a tree in order reaches from where its first token begins to where its last one ends
(`span_eq`), and the order of trees is the order of the places that they reach over: what stands below
a tree lies inside it, and nodes of a kind that does not stand inside itself lie one behind the other
(`Tree.Fits.spans`).
-/

namespace Stylesheet

open Position Grammar

namespace Span

/-- `a` begins in front of `b`, and ends where `b` begins or in front of it. -/
def Precedes (a b : Span) : Prop := a.start.Before b.start ∧ a.stop.le b.start = true

/-- `a` is a part of `b`. -/
def Inside (a b : Span) : Prop := b.start.le a.start = true ∧ a.stop.le b.stop = true

end Span

/-! ## Tokens -/

/-- Tokens that stand one behind the other, with an `eof`. -/
structure InText (tokens : List Token) : Prop where
  filled : ∀ t ∈ tokens, t.kind ≠ .eof → t.span.start.Before t.span.stop
  wide : ∀ t ∈ tokens, t.span.start.le t.span.stop = true
  apart : tokens.Pairwise fun t u => t.span.stop.le u.span.start = true
  ended : tokens.findIdx Token.isEof < tokens.length

theorem LaidOut.le_stop {stop p : Position} {ts : List Token} (h : LaidOut stop p ts) :
    p.le stop = true := by
  induction ts generalizing p with
  | nil => exact h
  | cons t ts ih => exact le_trans h.1 (le_trans h.2.1 (ih h.2.2))

theorem LaidOut.pairwise {stop p : Position} {ts : List Token} (h : LaidOut stop p ts) :
    (∀ t ∈ ts, p.le t.span.start = true ∧ t.span.stop.le stop = true) ∧
      ts.Pairwise fun t u => t.span.stop.le u.span.start = true := by
  induction ts generalizing p with
  | nil => exact ⟨nofun, .nil⟩
  | cons t ts ih =>
    obtain ⟨hp, ht, hts⟩ := h
    obtain ⟨hall, hpairwise⟩ := ih hts
    refine ⟨List.forall_mem_cons.2 ⟨⟨hp, hts.le_stop⟩, fun u hu => ?_⟩,
      .cons (fun u hu => (hall u hu).1) hpairwise⟩
    obtain ⟨hfront, hback⟩ := hall u hu
    exact ⟨le_trans hp (le_trans ht hfront), hback⟩

theorem inText_tokenize {source : String} {text : List Char} {options : Options}
    (h : (tokenize source text options).tooDeep = none) :
    InText (tokenize source text options).tokens := by
  obtain ⟨ts, e, hts, hlaid⟩ := tokenize_laidOut h
  have hfilled := tokenize_filled h
  obtain ⟨hall, hpairwise⟩ := hlaid.pairwise
  refine ⟨hfilled, fun t ht => ?_, ?_, ?_⟩
  · by_cases hk : t.kind = .eof
    · rw [e] at ht
      rcases List.mem_append.1 ht with ht | ht
      · exact absurd hk (hts t ht)
      · rw [List.mem_singleton.1 ht]
        exact le_refl _
    · exact (hfilled t ht hk).le
  · rw [e]
    exact List.pairwise_append.2 ⟨hpairwise, List.pairwise_singleton _ _, fun t ht u hu => by
      rw [List.mem_singleton.1 hu]
      exact (hall t ht).2⟩
  · rw [List.findIdx_lt_length, e]
    exact ⟨_, List.mem_append_right ts List.mem_cons_self, rfl⟩

namespace InText

variable {tokens : List Token} (h : InText tokens) {i j : Nat}
include h

theorem stop_le_start (hij : i < j) (hj : j < tokens.length) :
    tokens[i].span.stop.le tokens[j].span.start = true :=
  List.pairwise_iff_getElem.1 h.apart i j (Nat.lt_trans hij hj) hj hij

theorem start_le_start (hij : i ≤ j) (hj : j < tokens.length) :
    tokens[i].span.start.le tokens[j].span.start = true := by
  rcases Nat.lt_or_eq_of_le hij with hij | rfl
  · exact le_trans (h.wide _ (List.getElem_mem _)) (h.stop_le_start hij hj)
  · exact le_refl _

theorem stop_le_stop (hij : i ≤ j) (hj : j < tokens.length) :
    tokens[i].span.stop.le tokens[j].span.stop = true := by
  rcases Nat.lt_or_eq_of_le hij with hij | rfl
  · exact le_trans (h.stop_le_start hij hj) (h.wide _ (List.getElem_mem _))
  · exact le_refl _

/-- Tokens in front of the `eof` begin one behind the other. -/
theorem start_before_start (hij : i < j) (hj : j ≤ tokens.findIdx Token.isEof)
    (hi : i < tokens.length) (hj' : j < tokens.length) :
    tokens[i].span.start.Before tokens[j].span.start := by
  have hk : tokens[i].kind ≠ .eof := by
    have := List.not_of_lt_findIdx (Nat.lt_of_lt_of_le hij hj)
    simpa [Token.isEof] using this
  exact (h.filled _ (List.getElem_mem hi) hk).trans_le (h.stop_le_start hij hj')

end InText

/-! ## Trees -/

/-- A node has children, unless its production allows that there are none. -/
theorem Grammar.Derived.isBare_eq_false {tokens : List Token} {t : Tree} {kind : NodeKind}
    (h : Derived tokens t) (hk : t.kind? = some kind)
    (hn : kind ∉ [NodeKind.stylesheet, .mediaQueryList, .error]) : t.isBare = false := by
  have tok (p : TokenKind → Bool) : FilledRows (leafOf tokens p) := .leafOf tokens p
  have hfilled : FilledRows (production (leafOf tokens) kind) := by
    by_cases hc : isCompact kind = true
    · exact filledRows_production hc
    · cases kind with
      | rule => exact (FilledRows.nodeIn _).first
      | mediaRule | fontFaceRule | declarationBlock => exact (tok _).first
      | stylesheet | mediaQueryList | error => exact absurd (by decide) hn
      | _ => exact absurd rfl hc
  obtain ⟨place, children, rfl, hrow, -⟩ := h.row hk
  cases children with
  | nil => exact absurd hrow hfilled
  | cons => rfl

namespace Tree

/-- A node of some kinds stands in front of the next one, where none has another one inside and none is
    without children. -/
theorem Orderly.nodesBelow_pairwise {kinds : List NodeKind} {t : Tree} (h : t.Orderly)
    (hself : ∀ u ∈ t.nodesBelow kinds, ∀ c ∈ u.children, c.nodesBelow kinds = [])
    (hbare : ∀ u ∈ t.nodesBelow kinds, u.isBare = false) :
    (t.nodesBelow kinds).Pairwise fun u v => u.last < v.first := by
  induction h with
  | leaf index => exact .nil
  | @node kind place children hs hb ih =>
    by_cases hk : kind ∈ kinds
    · have hmem : Tree.node kind place children ∈ (Tree.node kind place children).nodesBelow kinds :=
        List.mem_filter.2 ⟨List.mem_cons_self, isOf_iff.2 ⟨kind, hk, rfl⟩⟩
      have hnone : children.flatMap (nodesBelow kinds) = [] :=
        List.flatMap_eq_nil_iff.2 (hself _ hmem)
      rw [nodesBelow_self hk hnone]
      exact List.pairwise_singleton _ _
    · rw [nodesBelow_node hk] at hself hbare ⊢
      have hmem {c u : Tree} (hc : c ∈ children) (hu : u ∈ c.nodesBelow kinds) :
          u ∈ children.flatMap (nodesBelow kinds) := List.mem_flatMap.2 ⟨c, hc, hu⟩
      refine List.pairwise_flatMap.2 ⟨fun c hc => ih c hc (fun u hu => hself u (hmem hc hu))
        fun u hu => hbare u (hmem hc hu), ?_⟩
      refine hb.imp_of_mem fun {c d} hc hd hbefore u hu v hv => ?_
      have hu' := (List.mem_filter.1 hu).1
      obtain ⟨-, -, hlast⟩ := (hs c hc).subtree hu'
      obtain ⟨-, hfirst, -⟩ := (hs d hd).subtree (List.mem_filter.1 hv).1
      obtain ⟨hle, hmeet⟩ := hbefore
      refine Nat.lt_of_le_of_ne (Nat.le_trans hlast (Nat.le_trans hle hfirst)) fun e => ?_
      -- only a node without children ends where the next one begins, and then it is the node itself
      have hc' : c.isBare = true := hmeet (by omega)
      have hself : u = c := by
        cases c with
        | leaf => contradiction
        | node kind' place' ts =>
          cases ts with
          | nil => exact List.mem_singleton.1 hu'
          | cons => contradiction
      rw [← hself, hbare u (hmem hc hu)] at hc'
      contradiction

/-- A derived tree in order that ends no later than the `eof`. -/
structure Fits (tokens : List Token) (t : Tree) : Prop where
  derived : Derived tokens t
  orderly : t.Orderly
  last_le : t.last ≤ tokens.findIdx Token.isEof

theorem fits_parseTokens (source : String) (tokens : List Token) :
    Fits tokens (parseTokens source tokens).tree := by
  obtain ⟨ho, hl⟩ := parseTokens_orderly source tokens
  exact ⟨derived_parseTokens source tokens, ho, hl⟩

namespace Fits

variable {tokens : List Token} {t u : Tree}

theorem subtree (h : Fits tokens t) (hu : u ∈ t.subtrees) : Fits tokens u := by
  obtain ⟨ho, -, hl⟩ := h.orderly.subtree hu
  exact ⟨h.derived.subtree hu, ho, Nat.le_trans hl h.last_le⟩

section

variable (hin : InText tokens)
include hin

theorem last_lt (h : Fits tokens t) : t.last < tokens.length := Nat.lt_of_le_of_lt h.last_le hin.ended

theorem first_lt (h : Fits tokens t) : t.first < tokens.length :=
  Nat.lt_of_le_of_lt h.orderly.first_le_last (h.last_lt hin)

/-- It reaches from where its first token begins to where its last one ends. -/
theorem span_eq (h : Fits tokens t) (hf : t.first < tokens.length) (hl : t.last < tokens.length) :
    t.span tokens = ⟨tokens[t.first].span.start, tokens[t.last].span.stop⟩ := by
  have hle := h.orderly.first_le_last
  rw [span, List.getElem?_eq_getElem hf, List.getElem?_eq_getElem hl]
  dsimp only
  rw [Span.hull, Position.min, Position.max, if_pos (hin.start_le_start hle hl),
    if_pos (hin.stop_le_stop hle hl)]

theorem inside (h : Fits tokens t) (hu : u ∈ t.subtrees) :
    (u.span tokens).Inside (t.span tokens) := by
  have hu' := h.subtree hu
  obtain ⟨-, hfirst, hlast⟩ := h.orderly.subtree hu
  rw [h.span_eq hin (h.first_lt hin) (h.last_lt hin),
    hu'.span_eq hin (hu'.first_lt hin) (hu'.last_lt hin)]
  exact ⟨hin.start_le_start hfirst (hu'.first_lt hin), hin.stop_le_stop hlast (h.last_lt hin)⟩

theorem precedes (ht : Fits tokens t) (hu : Fits tokens u) (hlt : t.last < u.first) :
    (t.span tokens).Precedes (u.span tokens) := by
  have hfirst := Nat.lt_of_le_of_lt ht.orderly.first_le_last hlt
  have hle := Nat.le_trans hu.orderly.first_le_last hu.last_le
  rw [ht.span_eq hin (ht.first_lt hin) (ht.last_lt hin),
    hu.span_eq hin (hu.first_lt hin) (hu.last_lt hin)]
  exact ⟨hin.start_before_start hfirst hle (ht.first_lt hin) (hu.first_lt hin),
    hin.stop_le_start hlt (hu.first_lt hin)⟩

/-- Nodes of a kind that stands nowhere below itself lie one behind the other inside the tree, and so
    does what has the places of some of them. -/
theorem spans (h : Fits tokens t) (kind : NodeKind) (hk : kind ∉ kindsBelow kind)
    (hb : kind ∉ [NodeKind.stylesheet, .mediaQueryList, .error]) {α : Type} {xs : List α}
    {f : α → Span} (hs : (xs.map f).Sublist ((t.nodesBelow [kind]).map fun u => u.span tokens)) :
    (xs.map f).Pairwise Span.Precedes ∧ ∀ x ∈ xs, (f x).Inside (t.span tokens) := by
  have hnode {u : Tree} (hu : u ∈ t.nodesBelow [kind]) :
      u ∈ t.subtrees ∧ u.kind? = some kind := by
    obtain ⟨hs, ho⟩ := List.mem_filter.1 hu
    rw [isOf_singleton] at ho
    exact ⟨hs, eq_of_beq ho⟩
  have hpairwise : (t.nodesBelow [kind]).Pairwise fun u v => u.last < v.first := by
    refine h.orderly.nodesBelow_pairwise (fun u hu c hc => ?_) fun u hu => ?_
    · obtain ⟨hm, hku⟩ := hnode hu
      refine (h.subtree hm).derived.nodesBelow_child_eq_nil hku (fun k hk' e => ?_) c hc
      exact hk (List.mem_singleton.1 e ▸ hk')
    · obtain ⟨hm, hku⟩ := hnode hu
      exact (h.subtree hm).derived.isBare_eq_false hku hb
  refine ⟨List.Pairwise.sublist hs (List.pairwise_map.2 ?_), fun x hx => ?_⟩
  · exact hpairwise.imp_of_mem fun hu hv hlt =>
      (h.subtree (hnode hu).1).precedes hin (h.subtree (hnode hv).1) hlt
  · obtain ⟨u, hu, e⟩ := List.mem_map.1 (hs.subset (List.mem_map_of_mem hx))
    rw [← e]
    exact h.inside hin (hnode hu).1

end

end Fits

end Tree

end Stylesheet
