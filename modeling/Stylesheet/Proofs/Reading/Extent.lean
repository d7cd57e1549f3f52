import Mathlib.Data.List.DropRight
import Stylesheet.Proofs.Grammar.Equations
import Stylesheet.Proofs.Problem.Outcome
import Stylesheet.Proofs.Tree.Place

/-!
# How far a document reaches

The span of a document is that of its tree, so it begins and ends at tokens that the tree names: its
leaves, and the places where nodes without children were put (`Tree.mem_named_iff`). A statement that
is given up loses the tokens that it had taken, and what is skipped may take blanks along. So the span
begins at the first token that is not blank, and ends behind the last one, exactly where these are
named and nothing is named behind them (`parseText_span`).
-/

namespace Stylesheet

open Grammar

namespace Tree

/-- A node without children was put at the token `i`. -/
def HasBareAt (t : Tree) (i : Nat) : Prop := ∃ u ∈ t.subtrees, u.isBare = true ∧ u.first = i

mutual

/-- A tree names its leaves, and the places of nodes without children. -/
theorem mem_named_iff (t : Tree) (i : Nat) : i ∈ t.named ↔ i ∈ t.leaves ∨ t.HasBareAt i := by
  match t with
  | .leaf index =>
    refine ⟨Or.inl, fun h => h.elim id ?_⟩
    rintro ⟨u, hu, hb, -⟩
    rw [List.mem_singleton.1 hu] at hb
    contradiction
  | .node kind place [] =>
    refine ⟨fun h => Or.inr ⟨_, List.mem_cons_self, rfl, (List.mem_singleton.1 h).symm⟩, ?_⟩
    rintro (h | ⟨u, hu, -, rfl⟩)
    · exact absurd h List.not_mem_nil
    · rw [List.mem_singleton.1 hu]
      exact List.mem_cons_self
  | .node kind place (c :: cs) =>
    have hnamed : (Tree.node kind place (c :: cs)).named = namedAmong (c :: cs) := rfl
    rw [hnamed, mem_namedAmong_leaves, leaves]
    refine or_congr_right ⟨fun ⟨u, hu, h⟩ => ⟨u, List.mem_cons_of_mem _ hu, h⟩, ?_⟩
    rintro ⟨u, hu, hb, hf⟩
    rcases List.mem_cons.1 hu with rfl | hu
    · contradiction
    · exact ⟨u, hu, hb, hf⟩

theorem mem_namedAmong_leaves (ts : List Tree) (i : Nat) :
    i ∈ namedAmong ts ↔
      i ∈ leavesAmong ts ∨ ∃ u ∈ subtreesAmong ts, u.isBare = true ∧ u.first = i := by
  match ts with
  | [] => simp [namedAmong, leavesAmong, subtreesAmong]
  | t :: ts =>
    rw [namedAmong, leavesAmong, subtreesAmong, List.mem_append, List.mem_append,
      mem_named_iff t i, mem_namedAmong_leaves ts i, or_or_or_comm]
    refine or_congr_right ⟨?_, ?_⟩
    · rintro (⟨u, hu, h⟩ | ⟨u, hu, h⟩)
      · exact ⟨u, List.mem_append_left _ hu, h⟩
      · exact ⟨u, List.mem_append_right _ hu, h⟩
    · rintro ⟨u, hu, h⟩
      rcases List.mem_append.1 hu with hu | hu
      · exact Or.inl ⟨u, hu, h⟩
      · exact Or.inr ⟨u, hu, h⟩

end

mutual

theorem leaf_mem_subtrees {t : Tree} {i : Nat} (h : i ∈ t.leaves) : .leaf i ∈ t.subtrees := by
  match t with
  | .leaf index =>
    rw [List.mem_singleton.1 h]
    exact List.mem_cons_self
  | .node kind place children => exact List.mem_cons_of_mem _ (leaf_mem_subtreesAmong h)

theorem leaf_mem_subtreesAmong {ts : List Tree} {i : Nat} (h : i ∈ leavesAmong ts) :
    .leaf i ∈ subtreesAmong ts := by
  match ts with
  | [] => exact absurd h List.not_mem_nil
  | t :: ts =>
    rcases List.mem_append.1 h with h | h
    · exact List.mem_append_left _ (leaf_mem_subtrees h)
    · exact List.mem_append_right _ (leaf_mem_subtreesAmong h)

end

/-- What a tree in order names lies in its reach. -/
theorem Orderly.named_between {t : Tree} (h : t.Orderly) {i : Nat} (hi : i ∈ t.named) :
    t.first ≤ i ∧ i ≤ t.last := by
  rcases (mem_named_iff t i).1 hi with hi | ⟨u, hu, -, rfl⟩
  · exact (h.subtree (leaf_mem_subtrees hi)).2
  · obtain ⟨ho, hf, hl⟩ := h.subtree hu
    exact ⟨hf, Nat.le_trans ho.first_le_last hl⟩

end Tree

/-! ## Tokens that count -/

/-- The tokens in front of the `eof` that are not blank, with their numbers. -/
def solidTokens (tokens : List Token) : List Placed :=
  (numbered tokens).filter fun t => !Tokens.isBlank t

namespace Grammar

/-- Blanks in front of the statements are skipped. -/
theorem statements_skipBlank (st : Setting) (s : Tokens) :
    statements st (Tokens.skipBlank s) = statements st s := by
  have hskip : Tokens.skipBlank (Tokens.skipBlank s) = Tokens.skipBlank s :=
    List.dropWhile_idempotent _ s
  rw [statements_eq, statements_eq, hskip]

/-- The first token that counts is where the statements begin. -/
theorem skipBlank_of_head? {s : Tokens} {a : Placed}
    (h : (s.filter fun t => !Tokens.isBlank t).head? = some a) :
    ∃ rest, Tokens.skipBlank s = a :: rest := by
  rw [List.head?_filter, List.find?_eq_head?_dropWhile_not] at h
  simp only [Bool.not_not] at h
  exact ⟨_, List.eq_cons_of_mem_head? h⟩

/-- Nothing in front of the first token that counts is named. -/
theorem le_of_mem_named (source : String) {tokens : List Token} {a : Placed}
    (ha : (solidTokens tokens).head? = some a) :
    ∀ i ∈ (parseTokens source tokens).tree.named, a.index ≤ i := by
  intro i hi
  obtain ⟨rest, hrest⟩ := skipBlank_of_head? ha
  have hsorted : ((a :: rest).map Placed.index).Pairwise (· < ·) :=
    (pairwise_index_numbered tokens).sublist
      ((hrest ▸ Tokens.skipBlank_suffix (numbered tokens)).map Placed.index).sublist
  have hstop : a.index ≤ (setting source tokens).stopIndex :=
    Nat.le_of_lt (index_lt_of_mem_numbered (List.mem_of_mem_filter (List.mem_of_head? ha)))
  rw [parseTokens, Tree.named] at hi
  split at hi
  · rwa [List.mem_singleton.1 hi]
  · have hnames := statements_names (setting source tokens) (Tokens.skipBlank (numbered tokens))
      (numbered_drawnFrom tokens).skipBlank
    rw [statements_skipBlank, hrest] at hnames
    rcases hnames i hi with hm | ⟨-, rfl⟩
    · rcases List.mem_cons.1 hm with rfl | hm
      · exact Nat.le_refl _
      · exact Nat.le_of_lt ((List.pairwise_cons.1 hsorted).1 i hm)
    · exact hstop

end Grammar

/-! ## The span -/

section

variable {source : String} {tokens : List Token} (hin : InText tokens)
include hin

theorem span_start_iff {a : Placed} (ha : (solidTokens tokens).head? = some a) :
    ((parseTokens source tokens).tree.span tokens).start = a.token.span.start ↔
      a.index ∈ (parseTokens source tokens).tree.named := by
  have hfits := Tree.fits_parseTokens source tokens
  have hmem : a ∈ numbered tokens := List.mem_of_mem_filter (List.mem_of_head? ha)
  obtain ⟨hi, htoken⟩ := List.getElem?_eq_some_iff.1 (mem_numbered hmem)
  have hle := le_of_mem_named source ha _ (Tree.first_mem_named _)
  rw [hfits.span_eq hin (hfits.first_lt hin) (hfits.last_lt hin), ← htoken]
  refine ⟨fun e => ?_, fun h => ?_⟩
  · rcases Nat.lt_or_eq_of_le hle with hlt | heq
    · have hbefore := hin.start_before_start hlt
        (Nat.le_trans hfits.orderly.first_le_last hfits.last_le) hi (hfits.first_lt hin)
      exact absurd e.symm hbefore.ne
    · rw [heq]
      exact Tree.first_mem_named _
  · have heq := Nat.le_antisymm hle (hfits.orderly.named_between h).1
    simp only [heq]

theorem span_stop_iff {z : Placed} (hz : z ∈ numbered tokens) {stop : Token}
    (hstop : tokens[tokens.findIdx Token.isEof]? = some stop) :
    ((parseTokens source tokens).tree.span tokens).stop = z.token.span.stop ↔
      (z.index ∈ (parseTokens source tokens).tree.named ∧
        ∀ k ∈ (parseTokens source tokens).tree.named, k ≤ z.index) ∨
      (tokens.findIdx Token.isEof ∈ (parseTokens source tokens).tree.named ∧
        stop.span.stop = z.token.span.stop) := by
  have hfits := Tree.fits_parseTokens source tokens
  generalize (parseTokens source tokens).tree = tree at *
  obtain ⟨hi, htoken⟩ := List.getElem?_eq_some_iff.1 (mem_numbered hz)
  obtain ⟨hi', rfl⟩ := List.getElem?_eq_some_iff.1 hstop
  have hlt : z.index < tokens.findIdx Token.isEof := length_numbered tokens ▸ index_lt_of_mem_numbered hz
  have hl := hfits.last_lt hin
  have hlast := tree.last_mem_named
  have hbound : ∀ k ∈ tree.named, k ≤ tree.last := fun k hk => (hfits.orderly.named_between hk).2
  -- a token in front of the `eof` takes up room
  have hroom {k : Nat} (hk : k < tokens.length) (hf : k < tokens.findIdx Token.isEof) :
      tokens[k].span.start.Before tokens[k].span.stop :=
    hin.filled _ (List.getElem_mem hk) (by simpa [Token.isEof] using List.not_of_lt_findIdx hf)
  rw [hfits.span_eq hin (hfits.first_lt hin) hl, ← htoken]
  rcases Nat.lt_trichotomy tree.last z.index with hless | heq | hmore
  · have hne : tokens[tree.last].span.stop ≠ tokens[z.index].span.stop :=
      (Position.Before.of_le (hin.stop_le_start hless hi) (hroom hi hlt)).ne
    refine iff_of_false hne ?_
    rintro (⟨hz, -⟩ | ⟨hstop, -⟩)
    · exact absurd (hbound _ hz) (by omega)
    · exact absurd (hbound _ hstop) (by omega)
  · refine iff_of_true ?_ (Or.inl ⟨heq ▸ hlast, heq ▸ hbound⟩)
    simp only [heq]
  · have hfirst : ¬ (z.index ∈ tree.named ∧ ∀ k ∈ tree.named, k ≤ z.index) :=
      fun h => absurd (h.2 _ hlast) (by omega)
    rcases Nat.lt_or_eq_of_le hfits.last_le with hf | hf
    · have hne : tokens[tree.last].span.stop ≠ tokens[z.index].span.stop :=
        (Position.Before.of_le (hin.stop_le_start hmore hl) (hroom hl hf)).ne.symm
      refine iff_of_false hne ?_
      rintro (h | ⟨hstop, -⟩)
      · exact hfirst h
      · exact absurd (hbound _ hstop) (by omega)
    · have hend : tokens[tree.last] = tokens[tokens.findIdx Token.isEof] := by simp only [hf]
      rw [hend, or_iff_right hfirst, and_iff_right (hf ▸ hlast)]

end

/-- A token that counts is a leaf unless it was abandoned. -/
theorem mem_named_iff_of_mem_solid {source : String} {tokens : List Token} {t : Placed}
    (ht : t ∈ solidTokens tokens) :
    t.index ∈ (parseTokens source tokens).tree.named ↔
      t ∉ abandonedIn (recoveries source tokens) ∨
        (parseTokens source tokens).tree.HasBareAt t.index := by
  obtain ⟨hm, hb⟩ := List.mem_filter.1 ht
  have hk : t.token.kind ≠ .whitespace := by
    simpa [Tokens.isBlank, Token.isWhitespace] using hb
  have hcount := count_leaves_parseTokens source hm hk
  rw [Tree.mem_named_iff, ← List.count_pos_iff, hcount]
  refine or_congr_left ?_
  split
  · rename_i h
    exact iff_of_false (Nat.lt_irrefl 0) fun hn => hn h
  · rename_i h
    exact iff_of_true Nat.zero_lt_one h

/-- The `eof` of a text stands at its end. -/
theorem tokenize_eof {source : String} {text : List Char} {options : Options}
    (h : (tokenize source text options).tooDeep = none) :
    let tokens := (tokenize source text options).tokens
    tokens[tokens.findIdx Token.isEof]? = some (TokenStream.eofAt (.boundary text [])) := by
  obtain ⟨ts, e, hts, -⟩ := tokenize_laidOut h
  have hnone : ts.findIdx Token.isEof = ts.length :=
    List.findIdx_eq_length.2 fun t ht => beq_eq_false_iff_ne.2 (hts t ht)
  intro tokens
  have hidx : tokens.findIdx Token.isEof = ts.length := by
    rw [show tokens = _ from e, List.findIdx_append, hnone, if_neg (Nat.lt_irrefl _)]
    exact Nat.zero_add _
  rw [hidx, show tokens = _ from e, List.getElem?_concat_length]

/-- The span of a document begins where the first token that counts does, exactly if that token was not
    abandoned, or a node without children was put there. It ends where the last one does, exactly if
    the same holds of that token and the tree names none behind it, or if a node without children was
    put at the end of the text and nothing stands in between. -/
theorem parseText_span {source text : String} {options : Options} {d : Document} {a z : Placed}
    (hd : (parseText source text options).document = some d)
    (ha : (solidTokens (tokenize source text.toList options).tokens).head? = some a)
    (hz : (solidTokens (tokenize source text.toList options).tokens).getLast? = some z) :
    let tokens := (tokenize source text.toList options).tokens
    let tree := (parseTokens source tokens).tree
    let abandoned := abandonedIn (recoveries source tokens)
    (d.span.start = a.token.span.start ↔ a ∉ abandoned ∨ tree.HasBareAt a.index) ∧
      (d.span.stop = z.token.span.stop ↔
        ((z ∉ abandoned ∨ tree.HasBareAt z.index) ∧ ∀ k ∈ tree.named, k ≤ z.index) ∨
        (tokens.findIdx Token.isEof ∈ tree.named ∧
          .boundary text.toList [] = z.token.span.stop)) := by
  cases htd : (tokenize source text.toList options).tooDeep with
  | some e =>
    rw [(parseText_tooDeep htd).1] at hd
    contradiction
  | none =>
    have hspan : d.span = (parseTokens source (tokenize source text.toList options).tokens).tree.span
        (tokenize source text.toList options).tokens := by
      rw [(parseText_document htd).1] at hd
      rw [← Option.some.inj hd]
      rfl
    have hin := inText_tokenize htd
    have hsolid := List.mem_of_getLast? hz
    intro tokens tree abandoned
    rw [hspan, span_start_iff hin ha, span_stop_iff hin (List.mem_of_mem_filter hsolid)
      (tokenize_eof htd), mem_named_iff_of_mem_solid (List.mem_of_head? ha),
      mem_named_iff_of_mem_solid hsolid]
    exact ⟨Iff.rfl, Iff.rfl⟩

/-- The span of a document is that of what counts in its text. -/
def Document.CoversInput (d : Document) (tokens : List Token) : Prop :=
  ∀ a z, (solidTokens tokens).head? = some a → (solidTokens tokens).getLast? = some z →
    d.span = ⟨a.token.span.start, z.token.span.stop⟩

/-- A name alone begins a rule that is given up behind it. The document does not reach over it. -/
theorem not_coversInput_name :
    ∃ d, (parseText "name.css" "a" .standard).document = some d ∧
      ¬ d.CoversInput (tokenize "name.css" "a".toList .standard).tokens := by
  have hspan : (parseText "name.css" "a" .standard).document.map Document.span =
      some ⟨⟨1, 2⟩, ⟨1, 2⟩⟩ := by decide +kernel
  obtain ⟨d, hd, hs⟩ := Option.map_eq_some_iff.1 hspan
  refine ⟨d, hd, fun h => ?_⟩
  have hc := h ⟨0, ⟨.ident "a", "a", ⟨⟨1, 1⟩, ⟨1, 2⟩⟩⟩⟩ ⟨0, ⟨.ident "a", "a", ⟨⟨1, 1⟩, ⟨1, 2⟩⟩⟩⟩
    (by decide +kernel) (by decide +kernel)
  rw [hs] at hc
  exact absurd hc (by decide)

/-- Declarations and a rule that are given up on the way make no difference. -/
def troddenText : String := " /**/a \x7b b; c: d \x7d e >; \x7b \x7d @media f \x7b ^ g: h \x7d\n @i j \x7b\x7d /**/ "

theorem parseText_span_troddenText :
    ∃ d, (parseText "trodden.css" troddenText .standard).document = some d ∧
      d.span = ⟨⟨1, 6⟩, ⟨2, 9⟩⟩ := by
  have hsome : (parseText "trodden.css" troddenText .standard).document.isSome = true := by
    decide +kernel
  obtain ⟨d, hd⟩ := Option.isSome_iff_exists.1 hsome
  let tokens := (tokenize "trodden.css" troddenText.toList .standard).tokens
  have ha : (solidTokens tokens).head? = some ⟨1, ⟨.ident "a", "a", ⟨⟨1, 6⟩, ⟨1, 7⟩⟩⟩⟩ := by
    decide +kernel
  have hz : (solidTokens tokens).getLast? =
      some ⟨43, ⟨.closing .brace, "\x7d", ⟨⟨2, 8⟩, ⟨2, 9⟩⟩⟩⟩ := by decide +kernel
  obtain ⟨hstart, hstop⟩ := parseText_span hd ha hz
  refine ⟨d, hd, ?_⟩
  have h1 := hstart.2 (Or.inl (by decide +kernel))
  have h2 := hstop.2 (Or.inl ⟨Or.inl (by decide +kernel), by decide +kernel⟩)
  calc d.span = ⟨d.span.start, d.span.stop⟩ := rfl
    _ = _ := by rw [h1, h2]

end Stylesheet
