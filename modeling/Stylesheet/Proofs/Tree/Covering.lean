import Stylesheet.Proofs.Grammar.Numbered
import Stylesheet.Proofs.Grammar.Statement
import Stylesheet.Token.Stream

/-!
# The tree of a list of tokens

Every tree that the parser builds is a derivation (`parseTokens_derived`), and it accounts for the
tokens in front of the first `eof`: each of them that is not blank is a leaf once, except for those
that a production had taken before it was given up (`parseTokens_leaves`). So the tree covers the
input if no production fails behind a token that it has taken.
-/

namespace Stylesheet

open Computability Grammar

theorem numbered_drawnFrom (tokens : List Token) : DrawnFrom tokens (numbered tokens) :=
  fun _ ht => ⟨mem_numbered ht, ne_eof_of_mem_numbered ht⟩

/-- What the statements of a list are read from, and what becomes of its tokens. -/
theorem reads_numbered (source : String) (tokens : List Token) :
    Reads tokens (nodeIn statementKinds)∗ (numbered tokens)
      (statements (setting source tokens) (numbered tokens)).result (recoveries source tokens) := by
  obtain ⟨taken, e, hreads⟩ := statements_follows (setting source tokens) (numbered tokens)
    (numbered_drawnFrom tokens)
  rw [statements_rest, List.append_nil] at e
  rw [← e] at hreads
  exact hreads

theorem derived_parseTokens (source : String) (tokens : List Token) :
    Derived tokens (parseTokens source tokens).tree := by
  have hreads := reads_numbered source tokens
  exact .node hreads.shape hreads.derived

/-- The parser builds derivations of its grammar and nothing else, whatever the tokens are. -/
theorem parseTokens_derived (source : String) (tokens : List Token) :
    (parseTokens source tokens).tree.kind? = some .stylesheet ∧
      Derived tokens (parseTokens source tokens).tree :=
  ⟨rfl, derived_parseTokens source tokens⟩

/-- The token `i` stands in front of every `eof`. -/
def InFrontOfEof (tokens : List Token) (i : Nat) : Prop :=
  ∀ j u, j ≤ i → tokens[j]? = some u → u.kind ≠ .eof

/-- Every token that counts and is not blank is a leaf of the tree, once. -/
def Covers (tokens : List Token) (tree : Tree) : Prop :=
  ∀ i t, tokens[i]? = some t → InFrontOfEof tokens i → t.kind ≠ .whitespace →
    tree.leaves.count i = 1

theorem count_of_accounts {ts gone : Tokens} {ls es : List Nat} (h : Accounts ts ls es gone)
    (hn : (ts.map Placed.index).Nodup) {t : Placed} (ht : t ∈ ts)
    (hb : Tokens.isBlank t = false) : ls.count t.index = if t ∈ gone then 0 else 1 := by
  split
  · rename_i hg
    exact List.count_eq_zero.2 (h.disjoint hn t hg)
  · rename_i hg
    have hl := (h.mem_or_mem ht hb).resolve_right hg
    exact List.count_eq_one_of_mem (h.leaves_sublist.nodup hn) hl

/-- A token in front of the first `eof` that is not blank is a leaf once, unless it was abandoned. -/
theorem count_leaves_parseTokens (source : String) {tokens : List Token} {t : Placed}
    (ht : t ∈ numbered tokens) (hb : t.kind ≠ .whitespace) :
    (parseTokens source tokens).tree.leaves.count t.index =
      if t ∈ abandonedIn (recoveries source tokens) then 0 else 1 :=
  count_of_accounts (reads_numbered source tokens).accounts (nodup_index_numbered tokens) ht
    (beq_eq_false_iff_ne.2 hb)

/-- A token that is not blank is a leaf once, or not at all if a production took it and was then given
    up; error nodes hold what was skipped. -/
theorem parseTokens_leaves (source : String) (tokens : List Token) :
    (∀ i t, tokens[i]? = some t → InFrontOfEof tokens i → t.kind ≠ .whitespace →
      (parseTokens source tokens).tree.leaves.count i =
        if ⟨i, t⟩ ∈ abandonedIn (recoveries source tokens) then 0 else 1) ∧
    (∀ r ∈ recoveries source tokens, GivenUp r) ∧
    (parseTokens source tokens).tree.errorLeaves = skippedIn (recoveries source tokens) ∧
    (Covers tokens (parseTokens source tokens).tree ↔
      ∀ t ∈ abandonedIn (recoveries source tokens), t.kind = .whitespace) := by
  have hreads := reads_numbered source tokens
  have counts (i : Nat) (t : Token) (h : tokens[i]? = some t) (he : InFrontOfEof tokens i)
      (hb : t.kind ≠ .whitespace) : (parseTokens source tokens).tree.leaves.count i =
        if ⟨i, t⟩ ∈ abandonedIn (recoveries source tokens) then 0 else 1 :=
    count_leaves_parseTokens source (mem_numbered_of_getElem? h he) hb
  refine ⟨counts, recoveries_givenUp source tokens, hreads.errors, ?_, ?_⟩
  · -- an abandoned token is no leaf, so it has to be blank if the tree covers the input
    intro hc t ht
    by_contra hb
    have hm := hreads.accounts.lost_sublist.subset ht
    have hone := hc t.index t.token (mem_numbered hm) (fun j u => ne_eof_of_le_index hm) hb
    rw [counts t.index t.token (mem_numbered hm) (fun j u => ne_eof_of_le_index hm) hb,
      if_pos ht] at hone
    contradiction
  · intro hall i t h he hb
    rw [counts i t h he hb, if_neg]
    intro hm
    exact hb (hall _ hm)

/-- A block with a declaration that is given up behind its name. -/
def brokenTokens : List Token := (tokenize "broken.css" "a\x7bb;\x7d".toList .standard).tokens

theorem brokenTokens_eq : brokenTokens =
    [⟨.ident "a", "a", ⟨⟨1, 1⟩, ⟨1, 2⟩⟩⟩, ⟨.opening .brace, "\x7b", ⟨⟨1, 2⟩, ⟨1, 3⟩⟩⟩,
      ⟨.ident "b", "b", ⟨⟨1, 3⟩, ⟨1, 4⟩⟩⟩, ⟨.semicolon, ";", ⟨⟨1, 4⟩, ⟨1, 5⟩⟩⟩,
      ⟨.closing .brace, "\x7d", ⟨⟨1, 5⟩, ⟨1, 6⟩⟩⟩, ⟨.eof, "", ⟨⟨1, 6⟩, ⟨1, 6⟩⟩⟩] := by
  decide +kernel

/-- The name is in no node. -/
theorem not_covers_brokenTokens :
    ¬ Covers brokenTokens (parseTokens "broken.css" brokenTokens).tree := by
  intro h
  have kinds : ∀ j ≤ 2, brokenTokens[j]?.map Token.kind ≠ some .eof := by
    rw [brokenTokens_eq]
    decide
  have hone := h 2 ⟨.ident "b", "b", ⟨⟨1, 3⟩, ⟨1, 4⟩⟩⟩ (by rw [brokenTokens_eq]; rfl)
    (fun j u hj hu hk => kinds j hj (by rw [hu, Option.map_some, hk])) (by simp)
  have hzero : (parseTokens "broken.css" brokenTokens).tree.leaves.count 2 = 0 := by
    decide +kernel
  rw [hzero] at hone
  contradiction

end Stylesheet
