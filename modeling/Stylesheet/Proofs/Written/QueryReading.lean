import Stylesheet.Proofs.Written.QueryLanguage
import Stylesheet.Proofs.Written.SelectorTree

/-!
# Queries as they are written, and as they are read

A run of the language of queries is accepted up to the comma or the block behind it, and what is read from
its tree is what it says: the qualifier, the medium, and one feature for each that is written. The values
of the features are not lost (`PreludeRun.readable`).
-/

namespace Stylesheet

open Grammar Stylesheet.Tree

namespace Reading

/-- What a feature says: its name, and its value if there is one. -/
def featureForm (r : Reading) (f : FeatureForm) : MediaFeature :=
  ⟨f.name, f.value.bind fun v => (r.value v).result⟩

/-- What a query says. -/
def queryForm (r : Reading) (q : QueryForm) : MediaQuery :=
  ⟨q.qualifier, q.mediaType, q.features.map r.featureForm⟩

theorem Holds.kind? {r : Reading} {s : Tokens} {t : Placed} (h : r.Holds s) (ht : t ∈ s) :
    r.kind? t.index = some t.kind :=
  kind?_of_holds (h t ht)

end Reading

namespace Grammar

open Production Tokens Reading

variable {r : Reading} {s rest : Tokens}

theorem skipBlank_append_blank {b : Tokens} (hb : Blank b) (s : Tokens) :
    skipBlank (b ++ s) = skipBlank s :=
  List.dropWhile_append_of_pos hb

theorem skipBlank_front {b : Tokens} (hb : Blank b) {t : Placed} (ht : t.kind ≠ .whitespace)
    (rest : Tokens) : skipBlank (b ++ t :: rest) = t :: rest := by
  rw [skipBlank_append_blank hb, skipBlank_cons ht]

/-! ## Features -/

theorem kind?_of_value {named : Bool} {left : Tokens} {v : Tree}
    (h : value named s = .accepted v left) : v.kind? = some .value := by
  rw [value_eq] at h
  obtain ⟨first, s₁, -, h₁⟩ := bind_eq_accepted h
  obtain ⟨more, s₂, -, h₂⟩ := bind_eq_accepted h₁
  cases h₂
  rfl

/-- The row of trees of a value behind its colon. -/
inductive ValueRow : Option Tree → List Tree → Prop
  | absent : ValueRow none []
  | written (k : Placed) {v : Tree} (hv : v.kind? = some .value) : ValueRow (some v) [k.leaf, v]

theorem ValueRun.accepted {vs : Tokens} {value : Option Tree} (h : ValueRun vs value) {c : Placed}
    (hc : c.kind = .closing .paren) (rest : Tokens) :
    skipBlank (vs ++ c :: rest) = vs ++ c :: rest ∧
      ∃ row, featureValue (vs ++ c :: rest) = .accepted row (c :: rest) ∧ ValueRow value row := by
  cases h with
  | absent =>
    refine ⟨skipBlank_cons (by simp [hc]) rest, [], ?_, .absent⟩
    rw [featureValue, List.nil_append, bind_apply, take?_cons, if_neg (by simp [hc])]
    rfl
  | @written k b s left v hk hb hv hl =>
    have hvalue := (value_alone (u := rest) hc false s v left).2 hv
    have hfront : skipBlank (s ++ c :: rest) = s ++ c :: rest := by
      cases hs : s with
      | nil => exact absurd (hs ▸ hv) (value_nil false v left)
      | cons t us =>
        refine skipBlank_cons (fun hw => ?_) _
        rw [hs, value_eq, bind_apply, term_plain (by simp [argumentName?, hw, TokenKind.isIdent])
          (by simp [hw]), if_neg (by simp [hw, startsTerm])] at hv
        contradiction
    refine ⟨skipBlank_cons (by simp [hk]) _, _, ?_, .written k (kind?_of_value hv)⟩
    rw [featureValue, List.cons_append, bind_apply, take?_cons, if_pos (by simp [hk])]
    simp only [List.append_assoc, bind_apply, blank_apply, skipBlank_append_blank hb, hfront, hvalue,
      skipBlank_front hl (show c.kind ≠ .whitespace by simp [hc]), pure_apply]

theorem FeatureRun.accepted {fs : Tokens} {f : FeatureForm} (h : FeatureRun fs f) (rest : Tokens) :
    ∃ tree, mediaFeature (fs ++ rest) = .accepted tree rest ∧ tree.kind? = some .mediaFeature ∧
      ∀ r : Reading, r.Holds fs → (r.mediaFeature tree).result = some (r.featureForm f) := by
  obtain @⟨o, n, c, b, d, vs, name, value, ho, hb, hn, hd, hv, hc⟩ := h
  obtain ⟨hfront, row, hvalue, hrow⟩ := hv.accepted hc rest
  refine ⟨.node .mediaFeature o.index (o.leaf :: n.leaf :: (row ++ [c.leaf])), ?_, rfl, fun r hs => ?_⟩
  · have hclose : isClosingParen c.kind = true := by rw [hc]; rfl
    have hname : n.kind.isIdent = true := by rw [hn]; rfl
    simp only [mediaFeature, List.cons_append, List.append_assoc, List.nil_append, bind_apply, take_cons,
      ho, beq_self_eq_true, ↓reduceIte, blank_apply,
      skipBlank_front hb (show n.kind ≠ .whitespace by simp [hn]), hname, skipBlank_append_blank hd,
      hfront, hvalue, hclose, pure_apply]
    rfl
  · have hopen : r.ident? o.index = none := by
      rw [ident?, hs.kind? List.mem_cons_self, ho]
    have hword : r.ident? n.index = some name := by
      rw [ident?, hs.kind? (t := n) (by simp), hn]
    generalize ht : Tree.node .mediaFeature o.index (o.leaf :: n.leaf :: (row ++ [c.leaf])) = t
    have hfound : t.tokens.findSome? r.ident? = some name := by
      simp [← ht, Tree.tokens, Tree.children, Tree.index?, Placed.leaf, hopen, hword]
    rw [Reading.mediaFeature, hfound]
    cases hrow with
    | absent =>
      have hchild : t.child? .value = none := by rw [← ht]; rfl
      rw [hchild]
      rfl
    | @written k v hkind =>
      have hchild : t.child? .value = some v := by
        simp [← ht, Tree.child?, Tree.children, kind?_leaf, hkind]
      rw [hchild]
      rfl

/-- A row of trees says no word but `and`, and one feature for each that is written. -/
structure ReadsFeatures (r : Reading) (trees : List Tree) (fs : List FeatureForm) : Prop where
  words : r.mediaWordsOf trees = []
  features : (trees.filter (·.kind? == some .mediaFeature)).map (fun t => (r.mediaFeature t).result) =
    fs.map fun f => some (r.featureForm f)

theorem FeatureRun.exists_paren {fs : Tokens} {f : FeatureForm} (h : FeatureRun fs f) :
    ∃ o us, fs = o :: us ∧ o.kind = .opening .paren := by
  obtain @⟨o, n, c, b, d, vs, name, value, ho, -⟩ := h
  exact ⟨o, _, rfl, ho⟩

theorem mediaWordsOf_node {r : Reading} {t : Tree} {kind : NodeKind} (h : t.kind? = some kind) :
    r.mediaWordsOf [t] = [] := by
  cases t with
  | leaf => contradiction
  | node => rfl

theorem JoinedRun.accepted {more : Tokens} {fs : List FeatureForm} (h : JoinedRun more fs)
    (hr : (skipBlank rest).startsWith isAnd = false) :
    ∃ trees, furtherFeatures (more ++ rest) = .accepted trees (skipBlank rest) ∧
      ∀ r : Reading, r.Holds more → ReadsFeatures r trees fs := by
  induction h with
  | nil hb =>
    refine ⟨[], ?_, fun r _ => ⟨rfl, rfl⟩⟩
    rw [furtherFeatures_eq, skipBlank_append_blank hb, hr]
    rfl
  | @cons b d fs more w f others hb hw hd hf hm ih =>
    obtain ⟨trees, hmore, hreads⟩ := ih
    obtain ⟨tree, hfeature, hkind, hread⟩ := hf.accepted (more ++ rest)
    obtain ⟨o, us, rfl, ho⟩ := hf.exists_paren
    obtain ⟨name, hname⟩ : ∃ name, w.kind = .ident name ∧ sameWord name "and" = true := by
      cases hk : w.kind with
      | ident name => exact ⟨name, rfl, by rw [hk] at hw; exact hw⟩
      | _ => rw [hk] at hw; contradiction
    refine ⟨w.leaf :: tree :: trees, ?_, fun r hs => ?_⟩
    · have hfront : skipBlank (b ++ w :: (d ++ (o :: us ++ more)) ++ rest) =
          w :: (d ++ (o :: us ++ (more ++ rest))) := by
        simp only [List.append_assoc, List.cons_append]
        exact skipBlank_front hb (by simp [hname.1]) _
      have hstarts : startsWith (w :: (d ++ (o :: us ++ (more ++ rest)))) isAnd = true := hw
      have hsecond : skipBlank (d ++ (o :: us ++ (more ++ rest))) = o :: us ++ (more ++ rest) :=
        skipBlank_front hd (by simp [ho]) _
      rw [furtherFeatures_eq, hfront, if_pos hstarts]
      simp only [furtherFeature, bind_apply, take_cons, hw, ↓reduceIte, blank_apply, hsecond,
        hfeature, pure_apply, hmore]
      rfl
    · have hw' : r.mediaWordsOf [w.leaf] = [] := by
        rw [Placed.leaf, mediaWordsOf_ident ((hs.kind? (by simp)).trans (congrArg some hname.1)),
          if_pos hname.2]
      have hbehind : r.Holds (o :: us ++ more) := hs.append.2.cons.2.append.2
      obtain ⟨hwords, hfeatures⟩ := hreads r hbehind.append.2
      refine ⟨?_, ?_⟩
      · rw [show w.leaf :: tree :: trees = [w.leaf] ++ ([tree] ++ trees) from rfl, mediaWordsOf_append,
          mediaWordsOf_append, hw', mediaWordsOf_node hkind, hwords]
        rfl
      · rw [List.filter_cons_of_neg (by simp [kind?_leaf]), List.filter_cons_of_pos (by simp [hkind]),
          List.map_cons, List.map_cons, hread r hbehind.append.1, hfeatures]

/-! ## Queries -/

/-- The tokens in front of which a query ends: a comma, or a block. -/
def EndsQuery (rest : Tokens) : Prop :=
  ∃ t behind, Tokens.skipBlank rest = t :: behind ∧ (t.kind = .comma ∨ t.kind = .opening .brace)

theorem EndsQuery.startsWith {p : TokenKind → Bool} (h : EndsQuery rest) (hc : p .comma = false)
    (hb : p (.opening .brace) = false) : (Tokens.skipBlank rest).startsWith p = false := by
  obtain ⟨t, behind, e, ht | ht⟩ := h
  · rw [e, Tokens.startsWith, ht, hc]
  · rw [e, Tokens.startsWith, ht, hb]

/-- A head and what is joined to it are read as a query. -/
theorem mediaQuery_of_words {place : Nat} {head more : List Tree} {q : QueryForm}
    (first : List FeatureForm) {others : List FeatureForm}
    (hwords : mediaWords (r.mediaWordsOf head) = (q.qualifier, q.mediaType))
    (hfirst : (head.filter (·.kind? == some .mediaFeature)).map (fun t => (r.mediaFeature t).result) =
      first.map fun f => some (r.featureForm f))
    (hmore : ReadsFeatures r more others) (hq : q.features = first ++ others) :
    (r.mediaQuery (.node .mediaQuery place (head ++ more))).result = r.queryForm q := by
  have hall : (((head ++ more).filterMap Tree.index?).filterMap r.ident?).filter
      (fun word => !sameWord word "and") = r.mediaWordsOf head := by
    rw [← List.append_nil (r.mediaWordsOf head), ← hmore.words, ← mediaWordsOf_append]
    rfl
  have hfeatures : ((head ++ more).filter (·.kind? == some .mediaFeature)).map
      (fun t => (r.mediaFeature t).result) = q.features.map fun f => some (r.featureForm f) := by
    rw [List.filter_append, List.map_append, hfirst, hmore.features, hq, List.map_append]
  simp only [Reading.mediaQuery, Tree.tokens, Tree.nodesOf, Tree.children, Noted.bind_result,
    Noted.collect?_result, Noted.pure_result, hall, hwords, filterMap_of_map hfeatures, queryForm]

/-- The word of a qualifier is no word of the other one. -/
theorem qualifier_of_word {word : String} {q : Qualifier}
    (h : sameWord word (qualifierWord q) = true) :
    (if sameWord word "not" then Qualifier.not else .only) = q := by
  have hfold : foldCase word = foldCase (qualifierWord q) := eq_of_beq h
  rw [sameWord, hfold]
  cases q with
  | only => rfl
  | not => rfl

theorem mediaQuery_of_head {s left : Tokens} (head : List Tree) {more : List Tree}
    (hhead : mediaQueryHead s = .accepted head left) (hmore : furtherFeatures left = .accepted more rest) :
    mediaQuery s =
      .accepted (.node .mediaQuery (s.skipBlank.head?.elim 0 (·.index)) (head ++ more)) rest := by
  simp only [mediaQuery, bind_apply, ahead_apply, hhead, hmore, pure_apply]

theorem mediaQueryHead_feature {t : Placed} {left : Tokens} {tree : Tree}
    (hs : skipBlank s = t :: left) (ht : t.kind = .opening .paren)
    (h : mediaFeature (t :: left) = .accepted tree rest) :
    mediaQueryHead s = .accepted [tree] rest := by
  have hqualified : startsQualified (t :: left) = false := by
    simp [startsQualified, ht, isQualifier, isWord]
  have hmedium : startsWith (t :: left) isMediaType = false := by
    rw [startsWith, ht]
    rfl
  simp only [mediaQueryHead, bind_apply, blank_apply, hs, ahead_apply, hqualified, hmedium,
    Bool.false_eq_true, ↓reduceIte, h, pure_apply]

theorem mediaQueryHead_medium {t : Placed} (hs : skipBlank s = t :: rest)
    (ht : isMediaType t.kind = true) (hq : startsQualified (t :: rest) = false) :
    mediaQueryHead s = .accepted [t.leaf] rest := by
  have hmedium : startsWith (t :: rest) isMediaType = true := ht
  simp only [mediaQueryHead, bind_apply, blank_apply, hs, ahead_apply, hq, hmedium,
    Bool.false_eq_true, ↓reduceIte, take_cons, ht, pure_apply]

theorem mediaQueryHead_qualified {t u : Placed} {left : Tokens} (hs : skipBlank s = t :: left)
    (ht : isQualifier t.kind = true) (hl : skipBlank left = u :: rest)
    (hi : u.kind.isIdent = true) (hu : isMediaType u.kind = true) :
    mediaQueryHead s = .accepted [t.leaf, u.leaf] rest := by
  have hqualified : startsQualified (t :: left) = true := by
    rw [startsQualified, ht, hl, startsWith, hi, Bool.true_and]
  simp only [mediaQueryHead, bind_apply, blank_apply, hs, ahead_apply, hqualified, ↓reduceIte,
    take_cons, ht, hl, hu, pure_apply]

/-- The words of a qualifier and a medium are read as these. -/
theorem mediaWords_qualified {t u : Placed} {q : Qualifier} {word name : String}
    (ht : r.kind? t.index = some (.ident word)) (hu : r.kind? u.index = some (.ident name))
    (hq : sameWord word (qualifierWord q) = true) (hm : sameWord name "and" = false) :
    mediaWords (r.mediaWordsOf [t.leaf, u.leaf]) = (some q, some name) := by
  have hand : sameWord word "and" = false := sameWord_and hq (by cases q <;> decide)
  rw [show [t.leaf, u.leaf] = [t.leaf] ++ [u.leaf] from rfl, mediaWordsOf_append, Placed.leaf,
    Placed.leaf, mediaWordsOf_ident ht, hand, mediaWordsOf_ident hu, hm]
  show (some (if sameWord word "not" then Qualifier.not else .only), some name) = _
  rw [qualifier_of_word hq]

theorem isQualifier_of_word {k : TokenKind} {q : Qualifier} {word : String} (hk : k = .ident word)
    (hq : sameWord word (qualifierWord q) = true) : isQualifier k = true := by
  rw [hk]
  cases q with
  | only => exact Bool.or_eq_true_iff.2 (Or.inl hq)
  | not => exact Bool.or_eq_true_iff.2 (Or.inr hq)

/-- The medium of a query is not read as a qualifier. -/
theorem startsQualified_medium {t : Placed} {more : Tokens} {name : String} {fs : List FeatureForm}
    (ht : t.kind = .ident name)
    (halone : sameWord name "only" = true ∨ sameWord name "not" = true → fs = [])
    (hm : JoinedRun more fs) (hr : EndsQuery rest) :
    startsQualified (t :: (more ++ rest)) = false := by
  cases hq : isQualifier t.kind with
  | false => rw [startsQualified, hq, Bool.false_and]
  | true =>
    -- no feature is joined to the medium, so the query ends behind it
    rw [ht] at hq
    obtain rfl := halone (Bool.or_eq_true_iff.1 hq)
    have hblank : Blank more := by
      cases hm with
      | nil hb => exact hb
    rw [startsQualified, skipBlank_append_blank hblank, hr.startsWith rfl rfl, Bool.and_false]

theorem QueryRun.accepted {b qs : Tokens} {q : QueryForm} (h : QueryRun qs q) (hb : Blank b)
    (hr : EndsQuery rest) :
    ∃ tree, mediaQuery (b ++ (qs ++ rest)) = .accepted tree (skipBlank rest) ∧
      tree.kind? = some .mediaQuery ∧
      ∀ r : Reading, r.Holds qs → (r.mediaQuery tree).result = r.queryForm q := by
  have hand : (skipBlank rest).startsWith isAnd = false := hr.startsWith rfl rfl
  cases h with
  | @feature fs more f others hf hm =>
    obtain ⟨tree, hfeature, hkind, hread⟩ := hf.accepted (more ++ rest)
    obtain ⟨trees, hmore, hreads⟩ := hm.accepted hand
    obtain ⟨o, us, rfl, ho⟩ := hf.exists_paren
    have hfront : skipBlank (b ++ (o :: us ++ more ++ rest)) = o :: (us ++ (more ++ rest)) := by
      simp only [List.cons_append, List.append_assoc]
      exact skipBlank_front hb (by simp [ho]) _
    have hhead := mediaQueryHead_feature hfront ho hfeature
    refine ⟨_, mediaQuery_of_head [tree] hhead hmore, rfl, fun r hs => ?_⟩
    refine mediaQuery_of_words [f] ?_ ?_ (hreads r hs.append.2) rfl
    · rw [mediaWordsOf_node hkind]
      rfl
    · rw [List.filter_cons_of_pos (by simp [hkind]), List.map_cons, hread r hs.append.1]
      rfl
  | @medium t more name fs ht hmedium halone hm =>
    obtain ⟨trees, hmore, hreads⟩ := hm.accepted hand
    have hfront : skipBlank (b ++ (t :: more ++ rest)) = t :: (more ++ rest) :=
      skipBlank_front hb (by simp [ht]) _
    have hqualified := startsQualified_medium ht halone hm hr
    have hhead := mediaQueryHead_medium hfront (ht ▸ isMediaType_ident hmedium) hqualified
    refine ⟨_, mediaQuery_of_head [t.leaf] hhead hmore, rfl, fun r hs => ?_⟩
    refine mediaQuery_of_words [] ?_ rfl (hreads r hs.cons.2) rfl
    have hword : r.kind? t.index = some (.ident name) := by rw [hs.kind? List.mem_cons_self, ht]
    rw [Placed.leaf, mediaWordsOf_ident hword, hmedium]
    rfl
  | @qualified t u d more q word name fs ht hq hd hu hmedium hm =>
    obtain ⟨trees, hmore, hreads⟩ := hm.accepted hand
    have hfront : skipBlank (b ++ (t :: (d ++ u :: more) ++ rest)) =
        t :: (d ++ u :: (more ++ rest)) := by
      simp only [List.cons_append, List.append_assoc]
      exact skipBlank_front hb (by simp [ht]) _
    have hsecond : skipBlank (d ++ u :: (more ++ rest)) = u :: (more ++ rest) :=
      skipBlank_front hd (by simp [hu]) _
    have hhead := mediaQueryHead_qualified hfront (isQualifier_of_word ht hq) hsecond (by rw [hu]; rfl)
      (hu ▸ isMediaType_ident hmedium)
    refine ⟨_, mediaQuery_of_head [t.leaf, u.leaf] hhead hmore, rfl, fun r hs => ?_⟩
    have hs' : r.Holds (u :: more) := hs.cons.2.append.2
    refine mediaQuery_of_words [] (mediaWords_qualified ?_ ?_ hq hmedium) rfl
      (hreads r hs'.cons.2) rfl
    · rw [hs.kind? List.mem_cons_self, ht]
    · rw [hs'.kind? List.mem_cons_self, hu]

theorem QueryRun.front {qs : Tokens} {q : QueryForm} (h : QueryRun qs q) :
    ∃ t us, qs = t :: us ∧ t.kind ≠ .whitespace ∧ t.kind ≠ .opening .brace := by
  cases h with
  | feature hf _ =>
    obtain ⟨o, us, rfl, ho⟩ := hf.exists_paren
    exact ⟨o, _, rfl, by simp [ho], by simp [ho]⟩
  | medium ht => exact ⟨_, _, rfl, by simp [ht], by simp [ht]⟩
  | qualified ht => exact ⟨_, _, rfl, by simp [ht], by simp [ht]⟩

/-- A row of trees has one query for each that is written. -/
def ReadsQueries (r : Reading) (trees : List Tree) (qs : List QueryForm) : Prop :=
  (trees.filter (·.kind? == some .mediaQuery)).map (fun t => (r.mediaQuery t).result) =
    qs.map r.queryForm

theorem QueriesRun.accepted {run : Tokens} {qs : List QueryForm} (h : QueriesRun run qs)
    {brace : Placed} (hb : brace.kind = .opening .brace) (rest : Tokens) :
    ∃ first more left, mediaQuery (run ++ brace :: rest) = .accepted first left ∧
      furtherQueries left = .accepted more (brace :: rest) ∧
      ∀ r : Reading, r.Holds run → ReadsQueries r (first :: more) qs := by
  have hbrace : skipBlank (brace :: rest) = brace :: rest := skipBlank_cons (by simp [hb]) rest
  induction h with
  | @last b s q hd hq =>
    have hend : EndsQuery (brace :: rest) := ⟨brace, rest, hbrace, Or.inr hb⟩
    obtain ⟨tree, hquery, hkind, hread⟩ := hq.accepted hd hend
    refine ⟨tree, [], brace :: rest, ?_, ?_, fun r hs => ?_⟩
    · rw [List.append_assoc, hquery, hbrace]
    · rw [furtherQueries_cons, if_neg (by simp [hb])]
    · rw [ReadsQueries, List.filter_cons_of_pos (by simp [hkind]), List.map_cons, hread r hs.append.2]
      rfl
  | @cons b s more comma q others hd hq hc hm ih =>
    obtain ⟨next, further, left, hnext, hfurther, hreads⟩ := ih
    have hcomma : skipBlank (comma :: (more ++ brace :: rest)) = comma :: (more ++ brace :: rest) :=
      skipBlank_cons (by simp [hc]) _
    have hend : EndsQuery (comma :: (more ++ brace :: rest)) := ⟨comma, _, hcomma, Or.inl hc⟩
    obtain ⟨tree, hquery, hkind, hread⟩ := hq.accepted hd hend
    refine ⟨tree, comma.leaf :: next :: further, comma :: (more ++ brace :: rest), ?_, ?_,
      fun r hs => ?_⟩
    · rw [List.append_assoc, List.append_assoc, List.cons_append, hquery, hcomma]
    · rw [furtherQueries_cons, if_pos hc, hnext]
      dsimp only
      rw [hfurther]
      rfl
    · have hs' : r.Holds (s ++ comma :: more) := hs.append.2
      have hmore : ReadsQueries r (next :: further) others := hreads r hs'.append.2.cons.2
      rw [ReadsQueries, List.filter_cons_of_pos (by simp [hkind]),
        List.filter_cons_of_neg (by simp [kind?_leaf]), List.map_cons, List.map_cons,
        hread r hs'.append.1]
      exact congrArg _ hmore

/-- Without the blanks in front. -/
theorem QueriesRun.skipBlank {run : Tokens} {qs : List QueryForm} (h : QueriesRun run qs)
    (rest : Tokens) : ∃ t us, Tokens.skipBlank (run ++ rest) = t :: us ++ rest ∧ t :: us <:+ run ∧
      t.kind ≠ .opening .brace ∧ QueriesRun (t :: us) qs := by
  cases h with
  | @last b s q hb hq =>
    obtain ⟨t, us, rfl, hw, ht⟩ := hq.front
    refine ⟨t, us, ?_, List.suffix_append b _, ht, .last (b := []) .nil hq⟩
    rw [List.append_assoc]
    exact skipBlank_front hb hw _
  | @cons b s more comma q others hb hq hc hm =>
    obtain ⟨t, us, rfl, hw, ht⟩ := hq.front
    refine ⟨t, us ++ comma :: more, ?_, List.suffix_append b _, ht, .cons (b := []) .nil hq hc hm⟩
    rw [List.append_assoc]
    exact skipBlank_front hb hw _

theorem PreludeRun.accepted {run : Tokens} {qs : List QueryForm} (h : PreludeRun run qs)
    {brace : Placed} (hb : brace.kind = .opening .brace) (rest : Tokens) :
    ∃ list, mediaPrelude (skipBlank (run ++ brace :: rest)) = .accepted (list, brace.leaf) rest ∧
      list.kind? = some .mediaQueryList ∧
      ∀ r : Reading, r.Holds run → ReadsQueries r list.children qs := by
  have htake : Production.take (· == .opening .brace) unexpectedInMedia (brace :: rest) =
      .accepted brace.leaf rest := by
    rw [take_cons, if_pos (by simp [hb])]
  cases h with
  | empty hblank =>
    have hopen : startsWith (brace :: rest) (· == .opening .brace) = true := by
      show (brace.kind == .opening .brace) = true
      rw [hb]
      rfl
    refine ⟨.node .mediaQueryList brace.index [], ?_, rfl, fun r _ => rfl⟩
    rw [skipBlank_front hblank (by simp [hb])]
    simp only [mediaPrelude, mediaQueries, bind_apply, ahead_apply, hopen, ↓reduceIte, pure_apply, htake]
    rfl
  | queries h =>
    obtain ⟨t, us, hfront, hsuffix, ht, hrun⟩ := h.skipBlank (brace :: rest)
    obtain ⟨first, more, left, hfirst, hmore, hreads⟩ := hrun.accepted hb rest
    have hopen : startsWith (t :: us ++ brace :: rest) (· == .opening .brace) = false := by
      show (t.kind == .opening .brace) = false
      simpa using ht
    refine ⟨.node .mediaQueryList t.index (first :: more), ?_, rfl, fun r hs => ?_⟩
    · rw [hfront]
      simp only [mediaPrelude, mediaQueries, bind_apply, ahead_apply, hopen, Bool.false_eq_true,
        ↓reduceIte, hfirst, hmore, pure_apply, htake]
      rfl
    · exact hreads r fun u hu => hs u (hsuffix.subset hu)

/-! ## The values of features -/

/-- Whatever is accepted as a value can be read. -/
theorem ValueRun.readable {vs : Tokens} {value : Option Tree} (h : ValueRun vs value)
    (hs : DrawnFrom r.tokens vs) : ∀ v ∈ value, (r.value v).result.isSome = true := by
  cases h with
  | absent => nofun
  | @written k b s left v hk hb hv hl =>
    intro w hw
    cases hw
    obtain ⟨taken, -, hreads⟩ := Accepts.value false s hs.tail.right v left hv
    obtain ⟨place, ts, hts, e⟩ := hreads.shape
    cases e
    obtain ⟨x, hx⟩ := (value_whole (hreads.derived _ List.mem_cons_self) hts).found
    rw [hx]
    rfl

theorem FeatureRun.readable {fs : Tokens} {f : FeatureForm} (h : FeatureRun fs f)
    (hs : DrawnFrom r.tokens fs) : ∀ v ∈ f.value, (r.value v).result.isSome = true := by
  obtain @⟨o, n, c, b, d, vs, name, value, ho, hb, hn, hd, hv, hc⟩ := h
  exact hv.readable hs.tail.right.tail.right.left

theorem JoinedRun.readable {more : Tokens} {fs : List FeatureForm} (h : JoinedRun more fs)
    (hs : DrawnFrom r.tokens more) :
    ∀ f ∈ fs, ∀ v ∈ f.value, (r.value v).result.isSome = true := by
  induction h with
  | nil => nofun
  | cons hb hw hd hf hm ih =>
    have hbehind := hs.right.tail.right
    exact List.forall_mem_cons.2 ⟨hf.readable hbehind.left, ih hbehind.right⟩

theorem QueryRun.readable {qs : Tokens} {q : QueryForm} (h : QueryRun qs q)
    (hs : DrawnFrom r.tokens qs) :
    ∀ f ∈ q.features, ∀ v ∈ f.value, (r.value v).result.isSome = true := by
  cases h with
  | feature hf hm => exact List.forall_mem_cons.2 ⟨hf.readable hs.left, hm.readable hs.right⟩
  | medium ht hand halone hm => exact hm.readable hs.tail
  | qualified ht hq hb hu hand hm => exact hm.readable hs.tail.right.tail

theorem QueriesRun.readable {run : Tokens} {qs : List QueryForm} (h : QueriesRun run qs)
    (hs : DrawnFrom r.tokens run) :
    ∀ q ∈ qs, ∀ f ∈ q.features, ∀ v ∈ f.value, (r.value v).result.isSome = true := by
  induction h with
  | last hb hq => exact List.forall_mem_singleton.2 (hq.readable hs.right)
  | cons hb hq hc hm ih =>
    exact List.forall_mem_cons.2 ⟨hq.readable hs.right.left, ih hs.right.right.tail⟩

/-- No value of a feature is lost. -/
theorem PreludeRun.readable {run : Tokens} {qs : List QueryForm} (h : PreludeRun run qs)
    (hs : DrawnFrom r.tokens run) :
    ∀ q ∈ qs, ∀ f ∈ q.features, ∀ v ∈ f.value, (r.value v).result.isSome = true := by
  cases h with
  | empty => nofun
  | queries h => exact h.readable hs

end Grammar

end Stylesheet
