import Stylesheet.Proofs.Grammar.Numbered
import Stylesheet.Proofs.Problem.Outcome
import Stylesheet.Proofs.Reading.DocumentShape
import Stylesheet.Proofs.Written.StatementTree

/-!
# Rendered documents are read back

A document that came out of a text, whose names are plain and whose values a text can say, is
rendered as a text that is read back without a problem of the characters or of the grammar, and the
document that comes of it says the same (`parseText_render`). The statements are rendered in groups,
so the order in which they stood is lost, but nothing that the document holds.
-/

namespace Stylesheet

open Grammar

namespace Document

/-- What is rendered of a document is read back entry by entry. -/
theorem entries_isReadable {d : Document} (hs : d.IsShaped) (hp : d.isPlain = true)
    (hc : CleanValues d.values) : ∀ e ∈ d.entries, e.IsReadable := by
  simp only [isPlain, Bool.and_eq_true, List.all_eq_true] at hp
  obtain ⟨⟨hnamespaces, hfaces⟩, hrules⟩ := hp
  intro e he
  rcases List.mem_append.1 he with he | he
  · obtain ⟨n, hn, rfl⟩ := List.mem_map.1 he
    exact hnamespaces n hn
  · rcases List.mem_append.1 he with he | he
    · obtain ⟨f, hf, rfl⟩ := List.mem_map.1 he
      exact ⟨hfaces f hf, hs.fontFaces f hf, fun v hv =>
        hc v (List.mem_append_left _ (List.mem_flatMap.2 ⟨f, hf, hv⟩))⟩
    · obtain ⟨r, hr, rfl⟩ := List.mem_map.1 he
      exact ⟨hrules r hr, hs.rules r hr, fun v hv =>
        hc v (List.mem_append_right _ (List.mem_flatMap.2 ⟨r, hr, hv⟩))⟩

theorem filterMap_entries (d : Document) :
    d.entries.filterMap Entry.binding? = d.namespaces ∧
      d.entries.filterMap Entry.face? = d.fontFaces ∧
      d.entries.filterMap Entry.rule? = d.rules := by
  have some {α : Type} (l : List α) : l.filterMap (fun a => some a) = l := List.filterMap_some
  have none {α β : Type} (l : List α) : l.filterMap (fun _ => (none : Option β)) = [] :=
    List.filterMap_eq_nil_iff.2 fun _ _ => rfl
  refine ⟨?_, ?_, ?_⟩ <;>
    simp [entries, List.filterMap_map, Function.comp_def, Entry.binding?, Entry.face?, Entry.rule?]

end Document

/-- A document of a shape that a text can say is read back from what it is rendered as. -/
theorem parseText_render_of_isShaped {d : Document} (hs : d.IsShaped) (hp : d.isPlain = true)
    (hc : CleanValues d.values) {source : String} {options : Options}
    (hd : (tokenize source d.render.toList options).tooDeep = none) :
    AllOfClass .semantic (parseText source d.render options).problems ∧
      ∃ d', (parseText source d.render options).document = some d' ∧ d'.bare = d.bare := by
  have hentries := Document.entries_isReadable hs hp hc
  obtain ⟨ks, hks, hlex⟩ := d.spread_render.lexes hentries 0
  rw [List.replicate_zero, List.nil_append] at hlex
  obtain ⟨ts, stop, htok, hkinds, hspelled, heof⟩ := tokenize_of_lexes hlex hd
  generalize htokens : ts ++ [TokenStream.eofAt stop] = tokens at htok
  have hplaced : (numbered tokens).map Placed.token = ts := by
    rw [← htokens]
    exact numbered_append_eof heof rfl
  have hall : (⟨source, tokens⟩ : Reading).HasAll (numbered tokens) ks := by
    refine ⟨?_, fun t ht => mem_numbered ht, by rwa [hplaced]⟩
    rw [← hkinds, ← hplaced, List.map_map]
    rfl
  obtain ⟨trees, hstatements, hnodes, hread⟩ :=
    statements_written (setting source tokens) hks hentries hall
  obtain ⟨hbindings, hfaces, hrules⟩ := d.filterMap_entries
  have hdistinct : KeysDistinct [] d.entries := by
    rw [KeysDistinct, List.nil_append, hbindings]
    exact hs.distinct
  have hsay := hread options [] hdistinct
  obtain ⟨hdocument, hproblems⟩ := parseText_document hd
  have hparse : parseTokens source tokens =
      ⟨.node .stylesheet (setting source tokens).stopIndex trees, []⟩ := by
    simp only [parseTokens, hstatements]
  have htree : (Tree.node .stylesheet (setting source tokens).stopIndex trees).nodes = trees :=
    List.filter_eq_self.2 hnodes
  rw [htok] at hdocument hproblems
  simp only [hparse, List.nil_append] at hdocument hproblems
  refine ⟨hproblems ▸ buildDocument_class _ _ _ _, _, hdocument, ?_⟩
  simp only [buildDocument, htree, Document.bare, hsay.namespaces, hsay.fontFaces, hsay.rules,
    hbindings, hfaces, hrules]

/-- What a document is rendered as is read back: for every text that has a document whose names are
    plain and whose values a text can say, the rendered text has no problem of its characters or of
    the grammar where it keeps the nesting limit, and its document says the same. Where the parts
    stood and what was looked up for prefixes is left out on both sides. -/
theorem parseText_render {source text : String} {options : Options} {d : Document}
    (h : (parseText source text options).document = some d) (hp : d.isPlain = true)
    (hc : CleanValues d.values) (source' : String) (options' : Options)
    (hd : (tokenize source' d.render.toList options').tooDeep = none) :
    (∀ p ∈ (parseText source' d.render options').problems,
      p.kind.problemClass ≠ .lexical ∧ p.kind.problemClass ≠ .syntactic) ∧
    ∃ d', (parseText source' d.render options').document = some d' ∧ d'.bare = d.bare ∧
      d'.render = d.render := by
  obtain ⟨hclass, d', hdocument, hbare⟩ :=
    parseText_render_of_isShaped (parseText_isShaped h) hp hc hd
  refine ⟨fun p hm => ?_, d', hdocument, hbare, ?_⟩
  · rw [hclass p hm]
    exact ⟨nofun, nofun⟩
  · rw [← d'.render_bare, hbare, d.render_bare]

/-- Statements of every kind, in another order than that of a rendered document. -/
def variedText : String :=
  "@media NOT p and (w:1)\x7b*|a>#c:h(x)\x7bp:url(w)-1%!important\x7d\x7d" ++
    "@font-face\x7bs:'z'\x7d@namespace q'u'"

/-- It has a document with parts of every kind, which is read back. -/
theorem parseText_render_variedText :
    ∃ d : Document, (parseText "varied.css" variedText .standard).document = some d ∧
      d.namespaces.length = 1 ∧ d.fontFaces.length = 1 ∧ d.rules.length = 1 ∧
      (∀ p ∈ (parseText "rendered.css" d.render .strict).problems,
        p.kind.problemClass ≠ .lexical ∧ p.kind.problemClass ≠ .syntactic) ∧
      ∃ d', (parseText "rendered.css" d.render .strict).document = some d' ∧ d'.bare = d.bare ∧
        d'.render = d.render := by
  have hany : (parseText "varied.css" variedText .standard).document.any (fun d =>
      d.isPlain && decide (CleanValues d.values) &&
        (tokenize "rendered.css" d.render.toList .strict).tooDeep.isNone &&
        (d.namespaces.length == 1 && d.fontFaces.length == 1 && d.rules.length == 1)) = true := by
    decide +kernel
  obtain ⟨d, h, hd⟩ := (Option.any_eq_true _ _).1 hany
  simp only [Bool.and_eq_true, decide_eq_true_eq, Option.isNone_iff_eq_none, beq_iff_eq] at hd
  obtain ⟨⟨⟨hplain, hclean⟩, hdeep⟩, ⟨hn, hf⟩, hr⟩ := hd
  exact ⟨d, h, hn, hf, hr, parseText_render h hplain hclean "rendered.css" .strict hdeep⟩

end Stylesheet
