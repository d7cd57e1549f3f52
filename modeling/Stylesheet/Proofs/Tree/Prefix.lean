import Stylesheet.Proofs.Grammar.StableStatements
import Stylesheet.Proofs.Tree.Stop

/-!
# Statements that are over

Whatever is appended to a list of tokens, all statements but the last are read as before: the same
nodes, with the same problems (`statementRuns_append`). They name tokens of the list only, and a
document is made statement by statement, so what they add to it stays in front, too
(`parseTokens_begins`).
-/

namespace Stylesheet

namespace Grammar

open Tokens

/-- The statements one by one, each with the problems that were reported while it was read. -/
def statementRuns (st : Setting) (s : Tokens) : List (Tree × List Problem) :=
  have hs := skipBlank_length_le s
  match h : Tokens.skipBlank s with
  | [] => []
  | t :: rest =>
    let p := statement st t rest
    have : p.rest.length < s.length := by
      rw [h] at hs
      exact Nat.lt_of_le_of_lt (statement_length st t rest) hs
    (p.result, p.problems) :: statementRuns st p.rest
termination_by s.length

theorem statementRuns_nil {st : Setting} {s : Tokens} (h : skipBlank s = []) :
    statementRuns st s = [] := by
  rw [statementRuns]
  split
  · rfl
  · rename_i h'
    rw [h] at h'
    contradiction

theorem statementRuns_cons {st : Setting} {s rest : Tokens} {t : Placed}
    (h : skipBlank s = t :: rest) :
    statementRuns st s = ((statement st t rest).result, (statement st t rest).problems) ::
      statementRuns st (statement st t rest).rest := by
  rw [statementRuns]
  split
  · rename_i h'
    rw [h] at h'
    contradiction
  · rename_i h'
    rw [h] at h'
    cases h'
    rfl

theorem statements_eq_runs (st : Setting) (s : Tokens) :
    (statements st s).result = (statementRuns st s).map Prod.fst ∧
      (statements st s).problems = (statementRuns st s).flatMap Prod.snd := by
  fun_induction statementRuns st s with
  | case1 s _ h =>
    rw [statements_eq, h]
    exact ⟨rfl, rfl⟩
  | case2 s _ t rest h p _ ih =>
    rw [statements_eq, h, List.map_cons, List.flatMap_cons, ← ih.1, ← ih.2]
    exact ⟨rfl, rfl⟩

/-- All statements but the last are read in the same way with more tokens behind. -/
theorem statementRuns_append {st st' : Setting} (hst : st.source = st'.source) (s more : Tokens) :
    (statementRuns st s).dropLast <+: statementRuns st' (s ++ more) := by
  fun_induction statementRuns st s with
  | case1 => exact List.nil_prefix
  | case2 s _ t rest h p _ ih =>
    by_cases hp : Solid p.rest
    · -- another statement follows, so this one is over
      obtain ⟨u, left, hu⟩ := List.exists_cons_of_ne_nil hp
      have hne : statementRuns st p.rest ≠ [] := by
        rw [statementRuns_cons hu]
        exact List.cons_ne_nil _ _
      rw [List.dropLast_cons_of_ne_nil hne, statementRuns_cons (skipBlank_append h more),
        statement_append hst t rest hp more]
      exact List.cons_prefix_cons.2 ⟨rfl, ih⟩
    · rw [statementRuns_nil (Classical.not_not.1 hp)]
      exact List.nil_prefix

/-- They name no other tokens than those that are read. -/
theorem statementRuns_named {st : Setting} {tokens : List Token} (s : Tokens)
    (hs : DrawnFrom tokens s) :
    ∀ r ∈ (statementRuns st s).dropLast, r.1.named ⊆ s.map Placed.index := by
  have hb := Tokens.skipBlank_suffix s
  have hd : DrawnFrom tokens (Tokens.skipBlank s) := hs.skipBlank
  fun_induction statementRuns st s with
  | case1 => exact fun r hr => absurd hr List.not_mem_nil
  | case2 s _ t rest h p _ ih =>
    rw [h] at hb hd
    have hr : p.rest <:+ t :: rest := (statement_suffix st t rest).trans (List.suffix_cons t rest)
    have hp : DrawnFrom tokens p.rest := hd.of_suffix hr
    -- with nothing left the run is the last one, which is not among them
    by_cases hsolid : Solid p.rest
    · obtain ⟨u, left, hu⟩ := List.exists_cons_of_ne_nil hsolid
      have hne : statementRuns st p.rest ≠ [] := by
        rw [statementRuns_cons hu]
        exact List.cons_ne_nil _ _
      rw [List.dropLast_cons_of_ne_nil hne]
      intro r hm i hi
      rcases List.mem_cons.1 hm with rfl | hm
      · have hi' : i ∈ Tree.namedAmong [p.result] := by
          rw [Tree.namedAmong, Tree.namedAmong, List.append_nil]
          exact hi
        rcases statement_names st hd i hi' with hn | hn
        · exact (hb.map Placed.index).subset hn
        · exact absurd hn.1 hsolid.ne_nil
      · have hn := ih hp (Tokens.skipBlank_suffix _) hp.skipBlank r hm hi
        exact ((hr.trans hb).map Placed.index).subset hn
    · rw [statementRuns_nil (Classical.not_not.1 hsolid)]
      exact fun r hr => absurd hr List.not_mem_nil

end Grammar

namespace Draft

theorem append_assoc (a b c : Draft) : a ++ b ++ c = a ++ (b ++ c) := by
  change Draft.mk _ _ _ _ = Draft.mk _ _ _ _
  congr 1 <;> exact List.append_assoc _ _ _

end Draft

/-- Statements are read from left to right, and the later ones know the namespaces of the earlier. -/
theorem Reading.statements_append (r : Reading) (options : Options) (known : List Namespace)
    (ts us : List Tree) :
    r.statements options known (ts ++ us) = r.statements options known ts ++
      r.statements options (known ++ (r.statements options known ts).namespaces) us := by
  induction ts generalizing known with
  | nil =>
    have hn : known ++ (r.statements options known []).namespaces = known := List.append_nil known
    rw [List.nil_append, hn]
    rfl
  | cons t ts ih =>
    have hn : known ++ (r.statement options known t).namespaces ++
        (r.statements options (known ++ (r.statement options known t).namespaces) ts).namespaces =
          known ++ (r.statements options known (t :: ts)).namespaces := List.append_assoc _ _ _
    rw [List.cons_append, statements, ih, statements, hn, ← Draft.append_assoc]
    rfl

/-- The tree without the children behind the first ones. -/
def Tree.takeChildren (k : Nat) : Tree → Tree
  | .leaf index => .leaf index
  | .node kind place children => .node kind place (children.take k)

/-- One document begins like another, and so do the problems found in them. -/
structure Building.Begins (a b : Building) : Prop where
  namespaces : a.document.namespaces <+: b.document.namespaces
  fontFaces : a.document.fontFaces <+: b.document.fontFaces
  rules : a.document.rules <+: b.document.rules
  problems : a.problems <+: b.problems

/-- The first statements of a tree, read against tokens that are the same where these look, begin the
    document. -/
theorem buildDocument_begins (source : String) {tokens tokens' : List Token} {tree tree' : Tree}
    {k : Nat} (hk : (tree.takeChildren k).children <+: tree'.children)
    (hn : ∀ t ∈ (tree.takeChildren k).children, ∀ i ∈ t.named, tokens[i]? = tokens'[i]?)
    (options : Options) :
    (buildDocument source tokens (tree.takeChildren k) options).Begins
      (buildDocument source tokens' tree' options) := by
  obtain ⟨others, ho⟩ := hk
  have hnodes : tree'.nodes = (tree.takeChildren k).nodes ++ others.filter Tree.isNode := by
    rw [Tree.nodes, Tree.nodes, ← ho, List.filter_append]
  have hs : Reading.statements ⟨source, tokens⟩ options [] (tree.takeChildren k).nodes =
      Reading.statements ⟨source, tokens'⟩ options [] (tree.takeChildren k).nodes := by
    refine Reading.statements_agree options [] _ fun t ht => ⟨rfl, ?_⟩
    exact hn t (List.mem_filter.1 ht).1
  have happend := Reading.statements_append ⟨source, tokens'⟩ options [] (tree.takeChildren k).nodes
    (others.filter Tree.isNode)
  rw [← hnodes, ← hs] at happend
  refine ⟨?_, ?_, ?_, ?_⟩
  · simp only [buildDocument, happend]
    exact List.prefix_append _ _
  · simp only [buildDocument, happend]
    exact List.prefix_append _ _
  · simp only [buildDocument, happend]
    exact List.prefix_append _ _
  · simp only [Building.problems, buildDocument, happend]
    exact (List.prefix_append _ _).filterMap _

open Grammar

/-- The statements of a list of tokens, each with its problems. -/
def parseRuns (source : String) (tokens : List Token) : List (Tree × List Problem) :=
  statementRuns (setting source tokens) (numbered tokens)

theorem children_parseTokens (source : String) (tokens : List Token) :
    (parseTokens source tokens).tree.children = (parseRuns source tokens).map Prod.fst :=
  (statements_eq_runs _ _).1

theorem problems_parseTokens (source : String) (tokens : List Token) :
    (parseTokens source tokens).problems = (parseRuns source tokens).flatMap Prod.snd :=
  (statements_eq_runs _ _).2

/-- Behind tokens without an `eof`, others that end with one only add to what is read. -/
theorem exists_numbered_append {ts more : List Token} (hts : ∀ t ∈ ts, t.kind ≠ .eof)
    (hm : EndsInEof more) (hne : more ≠ []) :
    ∃ behind, numbered (ts ++ more) = (ts.zipIdx.map fun p => ⟨p.2, p.1⟩) ++ behind := by
  obtain ⟨stop, hstop, hk⟩ := exists_eof hm hne
  obtain ⟨hlt, hget⟩ := List.getElem?_eq_some_iff.1 hstop
  have hfront : ∀ t ∈ ts ++ more.take (more.findIdx Token.isEof), t.kind ≠ .eof := by
    intro t ht
    rcases List.mem_append.1 ht with ht | ht
    · exact hts t ht
    · obtain ⟨i, hi, rfl⟩ := List.mem_take_iff_getElem.1 ht
      have hf := List.not_of_lt_findIdx (Nat.lt_of_lt_of_le hi (Nat.min_le_left _ _))
      intro he
      rw [Token.isEof, he] at hf
      contradiction
  have hsplit : ts ++ more = (ts ++ more.take (more.findIdx Token.isEof)) ++
      stop :: more.drop (more.findIdx Token.isEof + 1) := by
    rw [List.append_assoc, ← hget, List.getElem_cons_drop, List.take_append_drop]
  rw [hsplit, numbered_append hfront hk, List.zipIdx_append, List.map_append]
  exact ⟨_, rfl⟩

section

variable {source : String} {ts more : List Token} {stop : Token} (hts : ∀ t ∈ ts, t.kind ≠ .eof)
  (hs : stop.kind = .eof) (hm : EndsInEof more) (hne : more ≠ [])

include hts hs hm hne

/-- All statements but the last stay what they are. -/
theorem parseRuns_begins :
    (parseRuns source (ts ++ [stop])).dropLast <+: parseRuns source (ts ++ more) := by
  obtain ⟨behind, e⟩ := exists_numbered_append hts hm hne
  have hst : (setting source (ts ++ [stop])).source = (setting source (ts ++ more)).source := rfl
  rw [parseRuns, parseRuns, e, numbered_append hts hs]
  exact statementRuns_append hst _ behind

omit hm hne in
/-- And they name tokens in front of what is appended. -/
theorem parseRuns_named (r : Tree × List Problem)
    (hr : r ∈ (parseRuns source (ts ++ [stop])).dropLast) : ∀ i ∈ r.1.named, i < ts.length := by
  intro i hi
  have hn := statementRuns_named _ (numbered_drawnFrom (ts ++ [stop])) r hr hi
  obtain ⟨t, ht, rfl⟩ := List.mem_map.1 hn
  have hl := index_lt_of_mem_numbered ht
  rwa [numbered_append hts hs, List.length_map, List.length_zipIdx] at hl

end

/-- Appending input never changes statements that are over. Of `n + 1` statements, the first `n` stay
    the same nodes; the problems reported while they were read stay the first ones, and so does what
    they add to the document and to the problems found in it. -/
theorem parseTokens_begins (source : String) (ts more : List Token) (stop : Token)
    (hts : ∀ t ∈ ts, t.kind ≠ .eof) (hs : stop.kind = .eof) (hm : EndsInEof more) (hne : more ≠ [])
    (options : Options) (n : Nat)
    (hn : (parseTokens source (ts ++ [stop])).tree.children.length = n + 1) :
    let before := parseTokens source (ts ++ [stop])
    let after := parseTokens source (ts ++ more)
    let problems := ((parseRuns source (ts ++ [stop])).take n).flatMap Prod.snd
    let part := buildDocument source (ts ++ [stop]) (before.tree.takeChildren n) options
    after.tree.children.take n = before.tree.children.take n ∧
      ((parseRuns source (ts ++ more)).take n).flatMap Prod.snd = problems ∧
      problems <+: before.problems ∧ problems <+: after.problems ∧
      part.Begins (buildDocument source (ts ++ [stop]) before.tree options) ∧
      part.Begins (buildDocument source (ts ++ more) after.tree options) := by
  have hpre : (parseRuns source (ts ++ [stop])).dropLast <+: parseRuns source (ts ++ more) :=
    parseRuns_begins hts hs hm hne
  have hk : n = (parseRuns source (ts ++ [stop])).length - 1 := by
    rw [children_parseTokens, List.length_map] at hn
    omega
  have htake : (parseRuns source (ts ++ [stop])).take n =
      (parseRuns source (ts ++ [stop])).dropLast := by rw [hk, List.dropLast_eq_take]
  have htake' : (parseRuns source (ts ++ more)).take n =
      (parseRuns source (ts ++ [stop])).dropLast := by
    rw [List.prefix_iff_eq_take.1 hpre, List.length_dropLast, hk]
  have hchildren : ((parseTokens source (ts ++ [stop])).tree.takeChildren n).children =
      (parseRuns source (ts ++ [stop])).dropLast.map Prod.fst := by
    rw [← htake, List.map_take, ← children_parseTokens]
    rfl
  have hnamed : ∀ t ∈ ((parseTokens source (ts ++ [stop])).tree.takeChildren n).children,
      ∀ i ∈ t.named, i < ts.length := by
    intro t ht
    rw [hchildren] at ht
    obtain ⟨r, hr, rfl⟩ := List.mem_map.1 ht
    exact parseRuns_named hts hs r hr
  refine ⟨?_, ?_, ?_, ?_, ?_, ?_⟩
  · rw [children_parseTokens, children_parseTokens, ← List.map_take, ← List.map_take, htake, htake']
  · rw [htake, htake']
  · rw [problems_parseTokens]
    exact (List.take_prefix _ _).flatMap _
  · rw [problems_parseTokens, htake]
    exact hpre.flatMap _
  · apply buildDocument_begins source _ (fun _ _ _ _ => rfl)
    rw [hchildren, children_parseTokens]
    exact (List.dropLast_prefix _).map _
  · apply buildDocument_begins source
    · rw [hchildren, children_parseTokens]
      exact hpre.map _
    · intro t ht i hi
      have hl := hnamed t ht i hi
      rw [List.getElem?_append_left hl, List.getElem?_append_left hl]

/-- A rule, and the beginning of another. -/
def openTokens : List Token := (tokenize "open.css" "a\x7bb;\x7dc\x7bd".toList .standard).tokens

/-- Whatever comes after the second rule, the first one stays as it is. -/
theorem parseTokens_begins_openTokens :
    (parseTokens "open.css" openTokens).tree.children.length = 2 ∧
      (parseTokens "open.css" (openTokens.dropLast ++ brokenTokens)).tree.children.take 1 =
        (parseTokens "open.css" openTokens).tree.children.take 1 := by
  obtain ⟨ts, stop, e, hts, hs⟩ : ∃ ts stop, openTokens = ts ++ [stop] ∧
      (∀ t ∈ ts, t.kind ≠ .eof) ∧ stop.kind = .eof :=
    ⟨openTokens.take 8, ⟨.eof, "", ⟨⟨1, 9⟩, ⟨1, 9⟩⟩⟩, by decide +kernel, by decide +kernel, rfl⟩
  have hend : EndsInEof brokenTokens := by
    intro t ht
    rw [brokenTokens_eq] at ht
    cases ht
    rfl
  have hne : brokenTokens ≠ [] := by
    rw [brokenTokens_eq]
    exact List.cons_ne_nil _ _
  have hn : (parseTokens "open.css" openTokens).tree.children.length = 2 := by decide +kernel
  refine ⟨hn, ?_⟩
  rw [e] at hn ⊢
  rw [List.dropLast_concat]
  exact (parseTokens_begins "open.css" ts brokenTokens stop hts hs hend hne .standard 1 hn).1

end Stylesheet
