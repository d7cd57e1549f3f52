import Stylesheet.Grammar.Statement

/-!
# The tokens that the grammar reads

`numbered` gives the tokens in front of the first `eof`, each with its place in the list.
-/

namespace Stylesheet

/-- Tokens as the parser takes them: none, or with an `eof` as the last. -/
def EndsInEof (tokens : List Token) : Prop :=
  ∀ t, tokens.getLast? = some t → t.kind = .eof

/-- A list of tokens that is not empty has an `eof`, and the first one is where `findIdx` finds it. -/
theorem exists_eof {tokens : List Token} (h : EndsInEof tokens) (hne : tokens ≠ []) :
    ∃ stop, tokens[tokens.findIdx Token.isEof]? = some stop ∧ stop.kind = .eof := by
  have hlast : ∃ t ∈ tokens, t.isEof = true := by
    refine ⟨tokens.getLast hne, List.getLast_mem hne, ?_⟩
    rw [Token.isEof, beq_iff_eq]
    exact h _ (List.getLast?_eq_some_getLast hne)
  have hl := List.findIdx_lt_length.2 hlast
  refine ⟨tokens[tokens.findIdx Token.isEof], List.getElem?_eq_getElem hl, ?_⟩
  have he : Token.isEof tokens[tokens.findIdx Token.isEof] = true := List.findIdx_getElem
  rwa [Token.isEof, beq_iff_eq] at he

namespace Grammar

theorem numbered_eq (tokens : List Token) :
    numbered tokens = (tokens.zipIdx.map fun p => (⟨p.2, p.1⟩ : Placed)).takeWhile
      fun t => !t.token.isEof :=
  rfl

theorem numbered_prefix_zipIdx (tokens : List Token) :
    numbered tokens <+: tokens.zipIdx.map fun p => (⟨p.2, p.1⟩ : Placed) :=
  List.takeWhile_prefix _

theorem map_token_zipIdx (tokens : List Token) :
    (tokens.zipIdx.map fun p => (⟨p.2, p.1⟩ : Placed)).map Placed.token = tokens := by
  rw [List.map_map]
  exact List.zipIdx_map_fst 0 tokens

theorem numbered_prefix_tokens (tokens : List Token) :
    (numbered tokens).map Placed.token <+: tokens := by
  have h := (numbered_prefix_zipIdx tokens).map Placed.token
  rwa [map_token_zipIdx] at h

theorem mem_numbered {tokens : List Token} {t : Placed} (h : t ∈ numbered tokens) :
    tokens[t.index]? = some t.token := by
  obtain ⟨⟨u, i⟩, hu, rfl⟩ := List.mem_map.1 ((numbered_prefix_zipIdx tokens).subset h)
  exact List.mem_zipIdx_iff_getElem?.1 hu

/-- The tokens in front of the first `eof` are all there. -/
theorem mem_numbered_of_getElem? {tokens : List Token} {i : Nat} {t : Token}
    (h : tokens[i]? = some t)
    (he : ∀ j u, j ≤ i → tokens[j]? = some u → u.kind ≠ .eof) : ⟨i, t⟩ ∈ numbered tokens := by
  have front : ∀ u ∈ (tokens.zipIdx.map fun p => (⟨p.2, p.1⟩ : Placed)).take (i + 1),
      (!u.token.isEof) = true := by
    intro u hu
    obtain ⟨j, hj, hu⟩ := List.mem_take_iff_getElem.1 hu
    have hl : j < tokens.length := by
      rw [List.length_map, List.length_zipIdx] at hj
      omega
    have hk := he j tokens[j] (by omega) (List.getElem?_eq_getElem hl)
    rw [List.getElem_map, List.getElem_zipIdx] at hu
    rw [← hu]
    simpa [Token.isEof] using hk
  obtain ⟨hi, ht⟩ := List.getElem?_eq_some_iff.1 h
  rw [numbered_eq, ← List.take_append_drop (i + 1) (tokens.zipIdx.map fun p =>
    (⟨p.2, p.1⟩ : Placed)), List.takeWhile_append_of_pos front]
  refine List.mem_append_left _ (List.mem_take_iff_getElem.2 ⟨i, ?_, ?_⟩)
  · rw [List.length_map, List.length_zipIdx]
    omega
  · rw [List.getElem_map, List.getElem_zipIdx, ht, Nat.zero_add]

/-- They stand in the order of their numbers. -/
theorem pairwise_index_numbered (tokens : List Token) :
    ((numbered tokens).map Placed.index).Pairwise (· < ·) := by
  have hs : ((numbered tokens).map Placed.index).Sublist
      ((tokens.zipIdx.map fun p => (⟨p.2, p.1⟩ : Placed)).map Placed.index) :=
    (numbered_prefix_zipIdx tokens).sublist.map Placed.index
  apply List.Pairwise.sublist hs
  rw [List.map_map]
  exact (List.zipIdx_map_snd 0 tokens) ▸ List.pairwise_lt_range'

theorem nodup_index_numbered (tokens : List Token) :
    ((numbered tokens).map Placed.index).Nodup :=
  (pairwise_index_numbered tokens).imp Nat.ne_of_lt

theorem ne_eof_of_mem_numbered {tokens : List Token} {t : Placed} (h : t ∈ numbered tokens) :
    t.kind ≠ .eof := by
  rw [numbered_eq] at h
  have ht := List.all_eq_true.1 List.all_takeWhile t h
  rw [Placed.kind]
  simpa [Token.isEof] using ht

/-- No `eof` stands in front of them. -/
theorem ne_eof_of_le_index {tokens : List Token} {t : Placed} (h : t ∈ numbered tokens) {j : Nat}
    {u : Token} (hj : j ≤ t.index) (hu : tokens[j]? = some u) : u.kind ≠ .eof := by
  have hp := numbered_prefix_zipIdx tokens
  obtain ⟨k, hk, rfl⟩ := List.getElem_of_mem h
  have hl : j < (numbered tokens).length := by
    rw [hp.getElem hk, List.getElem_map, List.getElem_zipIdx, Nat.zero_add] at hj
    exact Nat.lt_of_le_of_lt hj hk
  have hm : (numbered tokens)[j] = ⟨j, u⟩ := by
    obtain ⟨hj', rfl⟩ := List.getElem?_eq_some_iff.1 hu
    rw [hp.getElem hl, List.getElem_map, List.getElem_zipIdx, Nat.zero_add]
  exact ne_eof_of_mem_numbered (hm ▸ List.getElem_mem hl)

theorem numbered_append_eof {ts : List Token} (h : ∀ t ∈ ts, t.kind ≠ .eof) {stop : Token}
    (hs : stop.kind = .eof) : (numbered (ts ++ [stop])).map Placed.token = ts := by
  have hz := map_token_zipIdx ts
  have hall : ∀ t ∈ ts.zipIdx.map fun p => (⟨p.2, p.1⟩ : Placed), (!t.token.isEof) = true := by
    intro t ht
    have hm : t.token ∈ ts := hz ▸ List.mem_map_of_mem ht
    simpa [Token.isEof] using h _ hm
  rw [numbered_eq, List.zipIdx_append, List.map_append, List.takeWhile_append_of_pos hall]
  simp [Token.isEof, hs, hz]

theorem index_lt_of_mem_numbered {tokens : List Token} {t : Placed} (h : t ∈ numbered tokens) :
    t.index < (numbered tokens).length := by
  have hp := numbered_prefix_zipIdx tokens
  obtain ⟨k, hk, rfl⟩ := List.getElem_of_mem h
  rw [hp.getElem hk, List.getElem_map, List.getElem_zipIdx, Nat.zero_add]
  exact hk

/-- Where an `eof` follows, tokens without one are all there, whatever stands behind it. -/
theorem numbered_append {ts : List Token} (h : ∀ t ∈ ts, t.kind ≠ .eof) {stop : Token}
    (hs : stop.kind = .eof) (behind : List Token) :
    numbered (ts ++ stop :: behind) = ts.zipIdx.map fun p => ⟨p.2, p.1⟩ := by
  have hall : ∀ t ∈ ts.zipIdx.map fun p => (⟨p.2, p.1⟩ : Placed), (!t.token.isEof) = true := by
    intro t ht
    obtain ⟨⟨u, i⟩, hu, rfl⟩ := List.mem_map.1 ht
    simpa [Token.isEof] using h u (List.fst_mem_of_mem_zipIdx hu)
  rw [numbered_eq, List.zipIdx_append, List.map_append, List.takeWhile_append_of_pos hall]
  simp [Token.isEof, hs]

theorem length_numbered (tokens : List Token) :
    (numbered tokens).length = tokens.findIdx Token.isEof := by
  rw [numbered_eq]
  generalize 0 = i
  induction tokens generalizing i with
  | nil => rfl
  | cons t tokens ih =>
    rw [List.zipIdx_cons, List.map_cons, List.takeWhile_cons, List.findIdx_cons]
    cases t.isEof with
    | true => rfl
    | false =>
      rw [Bool.cond_false, ← ih (i + 1)]
      rfl

end Grammar

end Stylesheet
