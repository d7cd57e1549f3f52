import Stylesheet.Proofs.Written.QueryReading
import Stylesheet.Proofs.Written.StatementToken

/-!
# The trees of written media queries

The tokens of a written query are a run of the language of queries, and the run says the query
(`queryRun_written`). So they are accepted up to where they end, and their tree is read as the query.
-/

namespace Stylesheet.Grammar

open Production Reading

variable {r : Reading} {ts rest b : Tokens}

/-- The tokens of a value, up to where its row ends. -/
theorem value_written {v : Value} (hs : v.IsShaped false) (h : r.HasAll ts v.kinds)
    (hr : EndsRow rest) :
    ∃ tree, value false (ts ++ rest) = .accepted tree (Tokens.skipBlank rest) ∧
      tree.kind? = some .value ∧ (r.value tree).result = some v := by
  obtain ⟨place, trees, hvalue, hrow⟩ :=
    value_row (readsTerms v.kinds.length) hs (Nat.le_refl _) h.kinds h.held hr
  refine ⟨_, hvalue, rfl, ?_⟩
  simp only [Reading.value, Tree.children, hrow, Noted.pure_bind, Value.combine_row hs,
    Noted.pure_result]

/-- A blank in front of a value is skipped up to the value. -/
theorem skipBlank_value {v : Value} (hs : v.IsShaped false) (h : r.HasAll ts v.kinds) (rest : Tokens) :
    Tokens.skipBlank (ts ++ rest) = ts ++ rest := by
  obtain ⟨t, us, rfl, ht⟩ := exists_cons_of_kinds hs h.kinds
  exact skipBlank_cons (startsTerm_ne ht).1 _

theorem Blank.singleton {t : Placed} (h : r.Has t .whitespace) : Blank [t] :=
  List.forall_mem_singleton.2 (beq_iff_eq.2 h.kind)

/-! ## Features -/

theorem featureRun_written {f : MediaFeature} (hs : ∀ v ∈ f.value, v.IsShaped false)
    (h : r.HasAll ts f.kinds) : ∃ form, FeatureRun ts form ∧ r.featureForm form = f := by
  obtain ⟨name, value⟩ := f
  obtain ⟨o, us, rfl, ho, hus⟩ := HasAll.cons h
  obtain ⟨us, cs, rfl, hus, hcs⟩ := hus.append
  obtain ⟨n, vs, rfl, hn, hvs⟩ := hus.cons
  obtain ⟨c, rfl, hc⟩ := hcs.singleton
  cases value with
  | none =>
    obtain rfl := hvs.eq_nil
    exact ⟨⟨name, none⟩, .feature ho.kind .nil hn.kind .nil .absent hc.kind, rfl⟩
  | some v =>
    obtain ⟨k, vs, rfl, hk, hvs⟩ := hvs.cons
    obtain ⟨w, vs, rfl, hw, hvs⟩ := hvs.cons
    have hstop : EndsRow [c] := .of_cons (Or.inl hc.kind)
    obtain ⟨tree, hvalue, -, hread⟩ := value_written (hs v rfl) hvs hstop
    rw [skipBlank_cons (by simp [hc.kind])] at hvalue
    have halone : value false vs = .accepted tree [] := (value_alone hc.kind false vs tree []).1 hvalue
    have hrun : ValueRun (k :: ([w] ++ vs)) (some tree) :=
      .written hk.kind (.singleton hw) halone .nil
    refine ⟨⟨name, some tree⟩, .feature ho.kind .nil hn.kind .nil hrun hc.kind, ?_⟩
    rw [featureForm, Option.bind_some, hread]

/-- Each further feature stands behind the word `and`. -/
theorem joinedRun_written {fs : List MediaFeature} (hs : ∀ f ∈ fs, ∀ v ∈ f.value, v.IsShaped false)
    (h : r.HasAll ts (fs.flatMap fun f => MediaQuery.andKinds ++ f.kinds)) (hb : Blank b) :
    ∃ forms, JoinedRun (ts ++ b) forms ∧ forms.map r.featureForm = fs := by
  induction fs generalizing ts with
  | nil =>
    obtain rfl := HasAll.eq_nil h
    exact ⟨[], .nil hb, rfl⟩
  | cons f fs ih =>
    obtain ⟨hf, hfs⟩ := List.forall_mem_cons.1 hs
    rw [List.flatMap_cons, List.append_assoc] at h
    obtain ⟨us, vs, rfl, hus, hvs⟩ := h.append
    obtain ⟨a, us, rfl, ha, hus⟩ := HasAll.cons hus
    obtain ⟨w, us, rfl, hw, hus⟩ := HasAll.cons hus
    obtain ⟨d, rfl, hd⟩ := HasAll.singleton hus
    obtain ⟨vs, ws, rfl, hvs, hws⟩ := hvs.append
    obtain ⟨form, hfeature, hform⟩ := featureRun_written hf hvs
    obtain ⟨forms, hmore, hforms⟩ := ih hfs hws
    have hand : isAnd w.kind = true := by rw [hw.kind]; decide
    refine ⟨form :: forms, ?_, by rw [List.map_cons, hform, hforms]⟩
    simpa using JoinedRun.cons (.singleton ha) hand (.singleton hd) hfeature hmore

/-! ## Queries -/

/-- The qualifier and the medium of a query, or its first feature: the tokens in front of the
    features that are joined to it. -/
def headKinds (q : MediaQuery) : List TokenKind :=
  MediaQuery.qualifierKinds q.qualifier ++ (q.parts.map Prod.snd).head?.getD []

/-- The features that are joined to the head of a query. -/
def joinedFeatures (q : MediaQuery) : List MediaFeature :=
  if q.mediaType.isSome then q.features else q.features.tail

theorem kinds_query (q : MediaQuery) : q.kinds = headKinds q ++
    (joinedFeatures q).flatMap fun f => MediaQuery.andKinds ++ f.kinds := by
  obtain ⟨qualifier, medium, features⟩ := q
  rw [MediaQuery.kinds, headKinds, separatedKinds, List.append_assoc]
  cases medium with
  | some m => simp [MediaQuery.parts, joinedFeatures, List.flatMap_map]
  | none => cases features <;> simp [MediaQuery.parts, joinedFeatures, List.flatMap_map]

/-- What follows the head of a written query are the features that are joined to it. -/
theorem joinedFeatures_subset (q : MediaQuery) : joinedFeatures q ⊆ q.features := by
  rw [joinedFeatures]
  split
  · exact List.Subset.refl _
  · exact List.tail_subset _

/-- The tokens of a query are a run that says it. -/
theorem queryRun_written {q : MediaQuery} (hs : q.IsShaped) (h : r.HasAll ts q.kinds) (hb : Blank b) :
    ∃ form, QueryRun (ts ++ b) form ∧ r.queryForm form = q := by
  have hvalues : ∀ f ∈ q.features, ∀ v ∈ f.value, v.IsShaped false := fun f hf v hv =>
    hs.values v (List.mem_filterMap.2 ⟨f, hf, hv⟩)
  rw [kinds_query] at h
  obtain ⟨us, ms, rfl, hus, hms⟩ := h.append
  obtain ⟨forms, hjoined, hforms⟩ :=
    joinedRun_written (fun f hf => hvalues f (joinedFeatures_subset q hf)) hms hb
  rw [List.append_assoc]
  obtain ⟨qualifier, medium, features⟩ := q
  cases medium with
  | none =>
    obtain ⟨hq, hf⟩ := hs.filled rfl
    obtain rfl : qualifier = none := hq
    obtain ⟨f, fs, rfl⟩ := List.exists_cons_of_ne_nil (show features ≠ [] from hf)
    obtain ⟨form, hfeature, hform⟩ := featureRun_written (hvalues f List.mem_cons_self) hus
    refine ⟨⟨none, none, form :: forms⟩, .feature hfeature hjoined, ?_⟩
    rw [queryForm, List.map_cons, hform, hforms]
    rfl
  | some m =>
    have hword : sameWord m "and" = false := hs.medium m rfl
    cases qualifier with
    | none =>
      obtain ⟨t, rfl, ht⟩ := HasAll.singleton (k := .ident m) hus
      refine ⟨⟨none, some m, forms⟩, .medium ht.kind hword (fun hq => ?_) hjoined, ?_⟩
      · have hnone : features = [] := hs.alone rfl m rfl (Bool.or_eq_true_iff.2 hq)
        exact List.map_eq_nil_iff.1 (hforms.trans hnone)
      · rw [queryForm, hforms]
        rfl
    | some q =>
      obtain ⟨t, d, u, rfl, ht, hd, hu⟩ : ∃ t d u, us = [t, d, u] ∧
          r.Has t (.ident (qualifierWord q)) ∧ r.Has d .whitespace ∧ r.Has u (.ident m) := by
        cases q <;>
        · obtain ⟨t, us, rfl, ht, hus⟩ := HasAll.cons hus
          obtain ⟨d, us, rfl, hd, hus⟩ := HasAll.cons hus
          obtain ⟨u, rfl, hu⟩ := HasAll.singleton hus
          exact ⟨t, d, u, rfl, ht, hd, hu⟩
      have hsame : sameWord (qualifierWord q) (qualifierWord q) = true := beq_self_eq_true _
      refine ⟨⟨some q, some m, forms⟩,
        .qualified ht.kind hsame (.singleton hd) hu.kind hword hjoined, ?_⟩
      rw [queryForm, hforms]
      rfl

/-- Further queries stand behind commas. -/
theorem queriesRun_written {q : MediaQuery} {qs : List MediaQuery} {us vs d : Tokens}
    (hq : q.IsShaped) (hqs : ∀ q ∈ qs, q.IsShaped) (hd : Blank d) (hus : r.HasAll us q.kinds)
    (hvs : r.HasAll vs (furtherKinds (qs.map MediaQuery.kinds))) (hb : Blank b) :
    ∃ forms, QueriesRun (d ++ (us ++ (vs ++ b))) forms ∧ forms.map r.queryForm = q :: qs := by
  induction qs generalizing q us vs d with
  | nil =>
    obtain rfl := HasAll.eq_nil hvs
    obtain ⟨form, hquery, hform⟩ := queryRun_written hq hus hb
    exact ⟨[form], .last hd hquery, by rw [List.map_singleton, hform]⟩
  | cons next qs ih =>
    obtain ⟨hnext, hqs⟩ := List.forall_mem_cons.1 hqs
    rw [furtherKinds, List.map_cons, List.flatMap_cons] at hvs
    obtain ⟨vs, ws, rfl, hvs, hws⟩ := hvs.append
    obtain ⟨c, vs, rfl, hc, hvs⟩ := HasAll.cons hvs
    obtain ⟨w, vs, rfl, hw, hvs⟩ := HasAll.cons hvs
    obtain ⟨form, hquery, hform⟩ := queryRun_written hq hus .nil
    obtain ⟨forms, hmore, hforms⟩ := ih hnext hqs (.singleton hw) hvs hws
    rw [List.append_nil] at hquery
    refine ⟨form :: forms, ?_, by rw [List.map_cons, hform, hforms]⟩
    simpa using QueriesRun.cons hd hquery hc.kind hmore

/-- The queries of a media rule up to the brace of its block, with the blank in front of it. -/
theorem mediaPrelude_written {qs : List MediaQuery} (hne : qs ≠ []) (hs : ∀ q ∈ qs, q.IsShaped)
    (h : r.HasAll ts (separatedKinds commaKinds (qs.map MediaQuery.kinds))) {blank brace : Placed}
    (hw : r.Has blank .whitespace) (hb : brace.kind = .opening .brace) (behind : Tokens) :
    ∃ tree, mediaPrelude (Tokens.skipBlank (ts ++ blank :: brace :: behind)) =
        .accepted (tree, brace.leaf) behind ∧
      tree.kind? = some .mediaQueryList ∧
      (tree.nodesOf .mediaQuery).map (fun t => (r.mediaQuery t).result) = qs := by
  obtain ⟨q, qs, rfl⟩ := List.exists_cons_of_ne_nil hne
  obtain ⟨hq, hqs⟩ := List.forall_mem_cons.1 hs
  obtain ⟨us, vs, rfl, hus, hvs⟩ := HasAll.append h
  obtain ⟨forms, hrun, hforms⟩ := queriesRun_written hq hqs .nil hus hvs (.singleton hw)
  obtain ⟨tree, haccepted, hkind, hread⟩ := (PreludeRun.queries hrun).accepted hb behind
  have hheld : r.Holds ([] ++ (us ++ (vs ++ [blank]))) := by
    intro t ht
    rw [List.nil_append, ← List.append_assoc] at ht
    rcases List.mem_append.1 ht with ht | ht
    · exact h.held t ht
    · rw [List.mem_singleton.1 ht]
      exact hw.held
  refine ⟨tree, ?_, hkind, (hread r hheld).trans hforms⟩
  rw [← haccepted]
  simp

end Stylesheet.Grammar
