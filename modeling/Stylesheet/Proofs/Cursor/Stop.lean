import Stylesheet.Proofs.Cursor.Progress
import Stylesheet.Proofs.Tree.Stop

/-!
# Where reading stops

The cursor goes through the whole list of tokens, and may look anywhere in it. It comes to rest at the
first `eof` all the same, takes no token from there on, and reads the same whatever stands behind it
(`parse_stops`).
-/

namespace Stylesheet.Cursor

open Grammar

/-- The leaves of a tree stand in front of the first `eof`. -/
theorem leaf_lt_findIdx (source : String) (tokens : List Token) {k : Nat}
    (hk : k ∈ (parseTokens source tokens).tree.leaves) : k < tokens.findIdx Token.isEof := by
  have hl : k ∈ (numbered tokens).map Placed.index :=
    (reads_numbered source tokens).accounts.leaves_sublist.subset hk
  obtain ⟨t, ht, rfl⟩ := List.mem_map.1 hl
  rw [← length_numbered]
  exact index_lt_of_mem_numbered ht

theorem ne_eof_of_lt_findIdx {tokens : List Token} {k : Nat} {t : Token}
    (hk : k < tokens.findIdx Token.isEof) (ht : tokens[k]? = some t) : t.kind ≠ .eof := by
  obtain ⟨_, rfl⟩ := List.getElem?_eq_some_iff.1 ht
  have he := List.not_of_lt_findIdx hk
  rw [Token.isEof] at he
  exact beq_eq_false_iff_ne.1 he

/-- With an `eof` behind tokens that have none, reading comes to rest at it. -/
theorem parse_append (source : String) {ts behind : List Token} {stop : Token}
    (hts : ∀ t ∈ ts, t.kind ≠ .eof) (hs : stop.kind = .eof) (h : EndsInEof (ts ++ stop :: behind)) :
    parse source (ts ++ stop :: behind) = some ((parseTokens source (ts ++ [stop])).tree,
      ⟨⟨source, ts ++ stop :: behind⟩, ts.length, (parseTokens source (ts ++ [stop])).problems⟩) := by
  have hfirst : (ts ++ stop :: behind).findIdx Token.isEof = ts.length := by
    rw [← length_numbered, numbered_append hts hs, List.length_map, List.length_zipIdx]
  rw [parse_eq source h, parseTokens_append hts hs, hfirst]

/-- Reading stops at the first `eof`. Every round of every loop takes a token or is the last, so each
    loop comes to an end, and reading comes to rest at the first `eof`, or at 0 if there are no tokens.
    No token at or behind the first `eof` is in the tree, and whatever stands behind an `eof` makes no
    difference to where reading stops, to the tree, the document and their problems. -/
theorem parse_stops (source : String) (tokens : List Token) (h : EndsInEof tokens)
    (options : Options) :
    LoopsEnd ∧
    (∃ tree last, parse source tokens = some (tree, last) ∧
      last.toInput = ⟨source, tokens⟩ ∧
      (tokens = [] → last.pos = 0) ∧
      (tokens ≠ [] → ∃ stop, tokens[last.pos]? = some stop ∧ stop.kind = .eof) ∧
      (∀ k t, k < last.pos → tokens[k]? = some t → t.kind ≠ .eof) ∧
      (∀ k ∈ tree.leaves, k < last.pos) ∧
      ⟨tree, last.problems⟩ = parseTokens source tokens) ∧
    ∀ ts stop behind, tokens = ts ++ stop :: behind → (∀ t ∈ ts, t.kind ≠ .eof) →
      stop.kind = .eof →
      ∃ tree problems,
        parse source tokens = some (tree, ⟨⟨source, tokens⟩, ts.length, problems⟩) ∧
        parse source (ts ++ [stop]) = some (tree, ⟨⟨source, ts ++ [stop]⟩, ts.length, problems⟩) ∧
        buildDocument source tokens tree options =
          buildDocument source (ts ++ [stop]) tree options := by
  refine ⟨loops_end, ⟨_, _, parse_eq source h, rfl, ?_, exists_eof h,
    fun _ _ => ne_eof_of_lt_findIdx, fun _ => leaf_lt_findIdx source tokens, rfl⟩, ?_⟩
  · rintro rfl
    rfl
  · rintro ts stop behind rfl hts hs
    have hend : EndsInEof (ts ++ [stop]) := by
      intro t ht
      rw [List.getLast?_concat] at ht
      cases ht
      exact hs
    have hbuilt := buildDocument_append hts hs source behind options
    rw [parseTokens_append hts hs] at hbuilt
    exact ⟨_, _, parse_append source hts hs h, parse_append source hts hs hend, hbuilt⟩

/-- Behind the `eof` of a stylesheet, the same tokens once more make no difference. -/
theorem parse_stops_brokenTokens :
    EndsInEof (brokenTokens ++ brokenTokens) ∧ ∃ tree problems,
      parse "broken.css" (brokenTokens ++ brokenTokens) =
        some (tree, ⟨⟨"broken.css", brokenTokens ++ brokenTokens⟩, 5, problems⟩) ∧
      parse "broken.css" brokenTokens = some (tree, ⟨⟨"broken.css", brokenTokens⟩, 5, problems⟩) := by
  obtain ⟨ts, stop, e, hl, hts, hs⟩ : ∃ ts stop, brokenTokens = ts ++ [stop] ∧ ts.length = 5 ∧
      (∀ t ∈ ts, t.kind ≠ .eof) ∧ stop.kind = .eof :=
    ⟨brokenTokens.take 5, ⟨.eof, "", ⟨⟨1, 6⟩, ⟨1, 6⟩⟩⟩, by rw [brokenTokens_eq]; rfl,
      by rw [brokenTokens_eq]; rfl, by rw [brokenTokens_eq]; decide, rfl⟩
  have hend : EndsInEof (brokenTokens ++ brokenTokens) := by
    intro t ht
    rw [e, ← List.append_assoc, List.getLast?_concat] at ht
    cases ht
    exact hs
  have hsplit : brokenTokens ++ brokenTokens = ts ++ stop :: brokenTokens := by
    rw [e, List.append_assoc]
    rfl
  obtain ⟨-, -, hcut⟩ := parse_stops "broken.css" _ hend .standard
  obtain ⟨tree, problems, hlong, hshort, -⟩ := hcut ts stop brokenTokens hsplit hts hs
  rw [← e, hl] at hshort
  rw [hl] at hlong
  exact ⟨hend, tree, problems, hlong, hshort⟩

end Stylesheet.Cursor
