import Stylesheet.Proofs.Grammar.Resumed
import Stylesheet.Proofs.Tree.Covering
import Stylesheet.Proofs.Tree.Kinds
import Stylesheet.Proofs.Tree.Order
import Stylesheet.Proofs.Tree.Parts

/-!
# Blocks end at their own brace

In a balanced row of tokens a block of declarations is closed by the brace that belongs to its opening
one, whatever goes wrong in it. A declaration may be given up inside function calls, and the skip may end
inside them as well, but no brace can be closed there; so the block is at all times inside calls and
nothing else (`declarations_closed`). The rest is where blocks come from: each of them is read behind a
brace of the input (`BlocksIn.traversal`).
-/

namespace Stylesheet

namespace Grammar

open Production Tokens

/-! ## One block -/

section

variable {ending : Placed} {behind : Tokens} (hbrace : ending.kind = .closing .brace)

include hbrace

/-- Where a brace ends the row, a declaration leaves it inside. -/
theorem Past.inside {stack : List Bracket} {s : Tokens} (h : Past ending behind stack s) :
    Inside ending behind stack s := by
  rcases h with ⟨hsemi, -, -⟩ | ⟨-, h⟩
  · rw [hbrace] at hsemi
    contradiction
  · exact h

/-- From inside calls, a block goes on up to the brace behind all of them, which is its last token. -/
theorem declarations_closed (st : Setting) {calls : Nat} {s : Tokens}
    (h : Inside ending behind (List.replicate calls .paren) s) :
    (declarations st s).rest = behind ∧
      ∃ content, (declarations st s).result = content ++ [ending.leaf] := by
  have hend : EndsDeclaration ending.kind := Or.inr hbrace
  replace h := h.skipBlank hend
  fun_induction declarations st s generalizing calls with
  | case1 s _ e => exact absurd e h.ne_nil
  | case2 s _ t rest e _ hb =>
    -- a brace closes no call, so this is the one behind all of them
    rw [e] at h
    obtain ⟨-, rfl, rfl⟩ | ⟨outer, e, -⟩ := h.atClosing hb
    · exact ⟨rfl, [], rfl⟩
    · exact absurd e replicate_ne_brace
  | case3 s _ t rest e _ _ hk ih =>
    rw [e] at h
    have hi := Past.inside hbrace (h.atSemicolon hk)
    obtain ⟨hrest, content, hresult⟩ := ih (hi.skipBlank hend)
    exact ⟨hrest, t.leaf :: content, congrArg (t.leaf :: ·) hresult⟩
  | case4 s _ t rest e _ _ _ d left hd _ ih =>
    rw [e] at h
    have hleaves := declaration_leaves hend h
    rw [hd] at hleaves
    have hi := Past.inside hbrace hleaves
    obtain ⟨hrest, content, hresult⟩ := ih (hi.skipBlank hend)
    exact ⟨hrest, d :: content, congrArg (d :: ·) hresult⟩
  | case5 s _ t rest e _ _ _ f left hd _ ih =>
    rw [e] at h
    have hleaves := declaration_leaves hend h
    rw [hd] at hleaves
    obtain ⟨more, hi⟩ := hleaves
    rw [← List.replicate_add, ← List.nil_append (List.replicate _ _)] at hi
    obtain ⟨hsemi, -⟩ | ⟨fewer, hi, -⟩ := skipDeclaration_inside hend hi
    · rw [hbrace] at hsemi
      contradiction
    · obtain ⟨hrest, content, hresult⟩ := ih (hi.skipBlank hend)
      exact ⟨hrest, _ :: content, congrArg (_ :: ·) hresult⟩

end

/-- Behind a brace of a balanced row, a block reaches up to the brace that closes it. -/
theorem declarationBlock_closed (st : Setting) {all rest : Tokens} {brace : Placed}
    (hall : Balanced true all) (hs : brace :: rest <:+ all) (hk : brace.kind = .opening .brace) :
    ∃ inner close behind, rest = inner ++ close :: behind ∧ close.kind = .closing .brace ∧
      Balanced true inner ∧ (declarationBlock st brace.leaf rest).result.first = brace.index ∧
      (declarationBlock st brace.leaf rest).result.last = close.index ∧
      (declarationBlock st brace.leaf rest).rest = behind := by
  obtain ⟨front, e⟩ := hs
  obtain ⟨inner, close, behind, rfl, hc, hinner⟩ := hall.opened e.symm (by rw [hk]; rfl)
  have hin : Inside close behind (List.replicate 0 .paren) (inner ++ close :: behind) :=
    hinner.inside (Or.inr hc) (fun _ hsemi => by rw [hc] at hsemi; contradiction) .stop
  obtain ⟨hrest, content, hresult⟩ := declarations_closed hc st hin
  refine ⟨inner, close, behind, rfl, hc, hinner, rfl, ?_, hrest⟩
  have hchildren : (declarationBlock st brace.leaf (inner ++ close :: behind)).result =
      .node .declarationBlock brace.index ((brace.leaf :: content) ++ [close.leaf]) := by
    rw [declarationBlock, Parsed.map, hresult]
    rfl
  rw [hchildren, Tree.last, Tree.lastAmong_concat]
  rfl

/-! ## Where blocks stand -/

/-- The nodes of a kind below a node of another one are those below its children. -/
theorem forall_nodesBelow_node {P : Tree → Prop} {kind k : NodeKind} (hk : k ≠ kind) (place : Nat)
    {children : List Tree} (h : ∀ t ∈ children, ∀ u ∈ t.nodesBelow [kind], P u) :
    ∀ u ∈ (Tree.node k place children).nodesBelow [kind], P u := by
  intro u hu
  rw [Tree.nodesBelow_node (by simpa using hk)] at hu
  obtain ⟨t, ht, hu⟩ := List.mem_flatMap.1 hu
  exact h t ht u hu

/-- What holds of the nodes of a kind in every block holds of all such nodes in the statements, if the kind
    stands in blocks only. -/
theorem Traversal.ofBlocks {st : Setting} {tokens : List Token} {all : Tokens}
    (hd : DrawnFrom tokens all) {kind : NodeKind} (hn : kind ∉ .selectorList :: .mediaQuery :: holders)
    (hb : ∀ k ∈ [NodeKind.selectorList, .mediaQuery], kind ∉ kindsBelow k) {P : Tree → Prop}
    (h : ∀ (brace : Placed) (rest : Tokens), brace :: rest <:+ all → brace.kind = .opening .brace →
      ∀ u ∈ (declarationBlock st brace.leaf rest).result.nodesBelow [kind], P u) :
    Traversal st all fun t => ∀ u ∈ t.nodesBelow [kind], P u := by
  -- what is read as a whole has no such node in it
  have none {taken : Tokens} {t : Tree} {k : NodeKind} (hk : k ∈ [NodeKind.selectorList, .mediaQuery])
      (hr : Reads tokens (nodeOf k) taken [t] []) : ∀ u ∈ t.nodesBelow [kind], P u := by
    have hne : k ≠ kind := by
      rintro rfl
      exact hn (List.mem_append_left holders hk)
    intro u hu
    rw [(hr.derived t List.mem_cons_self).nodesBelow_eq_nil hr.kind?_eq (by simpa using hne)
      fun k' hk' hm => hb k hk (by rwa [List.mem_singleton.1 hm] at hk')] at hu
    contradiction
  refine ⟨?_, ?_, ?_, ?_, fun hs hk => h _ _ hs hk⟩
  · intro index u hu
    rw [Tree.nodesBelow_leaf] at hu
    contradiction
  · intro k hk place children hs
    refine forall_nodesBelow_node ?_ place hs
    rintro rfl
    exact hn (List.mem_cons_of_mem _ (List.mem_cons_of_mem _ hk))
  · intro s rest t hs ht
    obtain ⟨taken, -, hr⟩ := Accepts.selectorList _ (hd.of_suffix hs) _ _ ht
    exact none (by simp) hr
  · intro s rest t hs ht
    obtain ⟨taken, -, hr⟩ := Accepts.mediaQuery _ (hd.of_suffix hs) _ _ ht
    exact none (by simp) hr

/-- A block as it is read behind a brace of the tokens `all`. -/
def BlockIn (st : Setting) (all : Tokens) (block : Tree) : Prop :=
  ∃ brace rest, brace :: rest <:+ all ∧ brace.kind = .opening .brace ∧
    block = (declarationBlock st brace.leaf rest).result

/-- Every block in a tree is read behind a brace. -/
def BlocksIn (st : Setting) (all : Tokens) (t : Tree) : Prop :=
  ∀ block ∈ t.nodesBelow [.declarationBlock], BlockIn st all block

theorem BlocksIn.node {st : Setting} {all : Tokens} {kind : NodeKind} (hk : kind ≠ .declarationBlock)
    (place : Nat) {children : List Tree} (h : ∀ t ∈ children, BlocksIn st all t) :
    BlocksIn st all (.node kind place children) :=
  forall_nodesBelow_node hk place h

section

variable {tokens : List Token} {all : Tokens} (st : Setting) (hd : DrawnFrom tokens all)

include hd

theorem derived_declarationBlock {brace : Placed} {rest : Tokens} (hs : brace :: rest <:+ all)
    (hk : brace.kind = .opening .brace) :
    Derived tokens (declarationBlock st brace.leaf rest).result := by
  have hdrawn : DrawnFrom tokens (brace :: rest) := hd.of_suffix hs
  have hbrace : Reads tokens (leafOf tokens (· == .opening .brace)) [brace] [brace.leaf] [] :=
    .leaf (hdrawn brace List.mem_cons_self) (by simp [hk])
  obtain ⟨taken, -, hreads⟩ := declarationBlock_follows st hdrawn.tail hbrace
  exact hreads.derived _ List.mem_cons_self

theorem declarationBlock_blocksIn {brace : Placed} {rest : Tokens} (hs : brace :: rest <:+ all)
    (hk : brace.kind = .opening .brace) :
    BlocksIn st all (declarationBlock st brace.leaf rest).result := by
  -- a block has no other blocks below it
  have hnone : ∀ k ∈ kindsBelow .declarationBlock, k ∉ [NodeKind.declarationBlock] := by decide
  have hchildren := (derived_declarationBlock st hd hs hk).nodesBelow_child_eq_nil rfl hnone
  have hself : (declarationBlock st brace.leaf rest).result.nodesBelow [.declarationBlock] =
      [(declarationBlock st brace.leaf rest).result] :=
    Tree.nodesBelow_self List.mem_cons_self (List.flatMap_eq_nil_iff.2 hchildren)
  intro block hm
  rw [hself] at hm
  exact ⟨brace, rest, hs, hk, List.mem_singleton.1 hm⟩

/-- Blocks stand in rules, and nowhere in a selector list or a media query. -/
theorem BlocksIn.traversal : Traversal st all (BlocksIn st all) :=
  .ofBlocks hd (by decide) (by decide) fun _ _ hs hk => declarationBlock_blocksIn st hd hs hk

end

end Grammar

open Grammar

/-- In a balanced list of tokens, every block of declarations reaches from its brace up to the one that
    closes it, whatever is broken inside. -/
theorem parseTokens_blocks (source : String) (tokens : List Token)
    (hb : Balanced true (numbered tokens)) :
    ∀ block ∈ (parseTokens source tokens).tree.nodesBelow [.declarationBlock],
      ∃ brace inner close behind, brace :: (inner ++ close :: behind) <:+ numbered tokens ∧
        brace.kind = .opening .brace ∧ close.kind = .closing .brace ∧ Balanced true inner ∧
        block.first = brace.index ∧ block.last = close.index := by
  intro block hm
  have hblocks := (BlocksIn.traversal (setting source tokens) (numbered_drawnFrom tokens)).statements
    (List.suffix_refl _)
  have htree : BlocksIn (setting source tokens) (numbered tokens) (parseTokens source tokens).tree :=
    .node (by decide) _ hblocks
  obtain ⟨brace, rest, hs, hk, rfl⟩ := htree block hm
  obtain ⟨inner, close, behind, rfl, hc, hinner, hfirst, hlast, -⟩ :=
    declarationBlock_closed (setting source tokens) hb hs hk
  exact ⟨brace, inner, close, behind, hs, hk, hc, hinner, hfirst, hlast⟩

/-- `@media x \x7b a \x7b p: f(+ \x7b ; \x7d) \x7d \x7d`, with a declaration that goes wrong in a call. -/
def nestedRow : Tokens :=
  [unwritten 0 (.atKeyword "media"), unwritten 1 (.ident "x"), unwritten 2 (.opening .brace),
    unwritten 3 (.ident "a"), unwritten 4 (.opening .brace)] ++ nestedCall.map (Placed.shift 3) ++
  [unwritten 13 (.closing .brace), unwritten 14 (.closing .brace)]

def nestedTokens : List Token := nestedRow.map Placed.token ++ [⟨.eof, "", .nowhere⟩]

theorem balanced_nestedRow : Balanced true nestedRow := by
  have hrule : Balanced true (unwritten 3 (.ident "a") :: unwritten 4 (.opening .brace) ::
      (nestedCall.map (Placed.shift 3) ++ [unwritten 13 (.closing .brace)])) :=
    .token rfl rfl nofun (.group rfl rfl (balanced_nestedCall.shift 3).divided .nil)
  exact .token rfl rfl nofun (.token rfl rfl nofun
    (@Balanced.group true (unwritten 2 (.opening .brace)) (unwritten 14 (.closing .brace)) _ [] .brace
      rfl rfl hrule .nil))

/-- The block reaches up to its own brace, past the braces in the call. -/
theorem parseTokens_blocks_nestedTokens :
    let tree := (parseTokens "nested.css" nestedTokens).tree
    Balanced true (numbered nestedTokens) ∧
      (tree.nodesBelow [.declarationBlock]).map (fun t => (t.first, t.last)) = [(4, 13)] ∧
      ∀ block ∈ tree.nodesBelow [.declarationBlock],
        ∃ brace inner close behind, brace :: (inner ++ close :: behind) <:+ numbered nestedTokens ∧
          brace.kind = .opening .brace ∧ close.kind = .closing .brace ∧ Balanced true inner ∧
          block.first = brace.index ∧ block.last = close.index := by
  intro tree
  have hrow : numbered nestedTokens = nestedRow := rfl
  have hb : Balanced true (numbered nestedTokens) := hrow ▸ balanced_nestedRow
  have hplaces : (tree.nodesBelow [.declarationBlock]).map (fun t => (t.first, t.last)) =
      [(4, 13)] := by decide +kernel
  exact ⟨hb, hplaces, parseTokens_blocks "nested.css" nestedTokens hb⟩

end Stylesheet
