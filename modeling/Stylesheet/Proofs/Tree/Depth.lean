import Stylesheet.Proofs.Grammar.Block
import Stylesheet.Proofs.Tree.Height

/-!
# The depth of declarations

A declaration is read inside the brace of its block. The parser ends a block only at a brace that it meets
outside the brackets it has followed since, and these are no more than are really open; so the brace of a
block is open wherever one of its declarations is read (`skipDeclaration_inBrace`). Below a declaration the
tokens are balanced, so all of its calls are open at one place inside the brace (`declarations_calls_lt`),
and the brace and the calls are no more than the text has blocks there (`parseTokens_calls_lt`).
-/

namespace Stylesheet

open Grammar

namespace Grammar

open Production Reading

/-! ## Inside a brace -/

/-- Inside the brackets `inner` that are open in a brace, no more than `limit` are open anywhere. -/
def InBrace (limit : Nat) (outer inner : List Bracket) (s : Tokens) : Prop :=
  mostOpen (inner ++ .brace :: outer) (s.map Placed.kind) ≤ limit

section

variable {limit : Nat} {outer inner : List Bracket} {t : Placed} {s : Tokens}

theorem InBrace.behind (h : InBrace limit outer inner (t :: s)) :
    mostOpen (bracketsBehind (inner ++ .brace :: outer) t.kind) (s.map Placed.kind) ≤ limit :=
  (Nat.max_le.1 h).2

/-- A token that opens and closes nothing. -/
theorem InBrace.inert (h : InBrace limit outer inner (t :: s)) (ho : t.kind.opens? = none)
    (hc : t.kind.isClosing = false) : InBrace limit outer inner s := by
  have hs := h.behind
  rwa [bracketsBehind_of_inert ho hc] at hs

theorem InBrace.tracks : TracksBrackets (InBrace limit outer) where
  filler h hk := by
    simp only [isFiller, Bool.and_eq_true, Option.isNone_iff_eq_none, Bool.not_eq_true'] at hk
    exact h.inert hk.1.1 hk.1.2
  opened h ho := by
    have hs := h.behind
    rwa [bracketsBehind_of_opens ho] at hs
  closed h hc := by
    have hs := h.behind
    rwa [hc, List.cons_append, bracketsBehind_closing] at hs

/-- A declaration ends where it is, or behind a semicolon. -/
theorem declarationEnd_inBrace (h : InBrace limit outer inner s) :
    StaysAt (InBrace limit outer) inner (declarationEnd s) := by
  have here : StaysAt (InBrace limit outer) inner ((do
      let s ← ahead
      if s.isEmpty || s.startsWith (· == .closing .brace) then return []
      else reject fun _ => .missingSemicolon : Production (List Tree)) s) := by
    rw [bind_apply, ahead_apply]
    dsimp only
    split
    · exact h
    · exact inCalls h
  cases s with
  | nil => exact here
  | cons t r =>
    rw [declarationEnd, bind_apply, take?_cons]
    by_cases hk : t.kind = .semicolon
    · rw [if_pos (beq_iff_eq.2 hk)]
      exact h.inert (by rw [hk]; rfl) (by rw [hk]; rfl)
    · rw [if_neg (by simpa using hk)]
      exact here

/-- A skip follows no more brackets than are open, so it does not go past the brace that ends the block. -/
theorem skipDeclaration_inBrace {depth : Nat} (hd : depth ≤ inner.length)
    (h : InBrace limit outer inner s) :
    ∃ inner, InBrace limit outer inner (skipDeclaration depth s).rest := by
  induction s generalizing depth inner with
  | nil => exact ⟨inner, h⟩
  | cons t s ih =>
    rw [skipDeclaration_cons]
    split_ifs with hbrace hsemi
    · exact ⟨inner, h⟩
    · exact ⟨inner, h.inert (by rw [hsemi.2]; rfl) (by rw [hsemi.2]; rfl)⟩
    · obtain ⟨inner', hd', hs⟩ : ∃ inner', bracketDepth depth t.kind ≤ inner'.length ∧
          InBrace limit outer inner' s := by
        cases ho : t.kind.opens? with
        | some b =>
          refine ⟨b :: inner, ?_, InBrace.tracks.opened h ho⟩
          simpa [bracketDepth, ho] using hd
        | none =>
          cases hc : t.kind.isClosing with
          | false => exact ⟨inner, by simpa [bracketDepth, ho, hc] using hd, h.inert ho hc⟩
          | true =>
            have hb : bracketDepth depth t.kind = depth - 1 := by simp [bracketDepth, ho, hc]
            -- the innermost bracket is closed, or none is
            have hs := h.behind
            rw [bracketsBehind, ho] at hs
            dsimp only at hs
            split at hs
            · rename_i hclose
              cases inner with
              | nil =>
                have hk : TokenKind.closing .brace = t.kind := Option.some.inj hclose
                exact absurd ⟨Nat.le_zero.1 hd, hk.symm⟩ hbrace
              | cons c inner =>
                rw [List.length_cons] at hd
                exact ⟨inner, by omega, hs⟩
            · exact ⟨inner, by omega, hs⟩
      exact ih hd' hs

end

/-! ## One declaration -/

section

variable {r : Reading}

/-- The tokens below a declaration are balanced. -/
theorem Derived.nests_declaration {t : Tree} (h : Derived r.tokens t)
    (hk : t.kind? = some .declaration) : Nests t.calls (r.kindsAt t.leaves) := by
  obtain ⟨place, children, rfl, hrow, hs⟩ := h.row hk
  have hvalue : NestRows r (valueNode (leafOf r.tokens) false) :=
    fun row hr => NestRows.nodeIn [.value] row (nodeWith_le _ _ row hr)
  have hbelow (c : Tree) (hc : c ∈ children) (hn : c.isNode = true) :
      Nests c.calls (r.kindsAt c.leaves) := by
    cases c with
    | leaf => contradiction
    | node k place' ts =>
      have hk' := List.contains_iff_mem.1 (kindRows_production .declaration _ hrow _ hc k rfl)
      cases List.mem_singleton.1 hk'
      exact (hs _ hc).nests rfl (by decide)
  rw [Tree.calls_node (by decide), Tree.leaves]
  exact NestRows.cons .ident ((NestRows.only rfl rfl).cons (hvalue.cons
    ((NestRows.one.add (.only rfl rfl)).cons ((NestRows.one.add (.only rfl rfl)).cons .one))))
    children hrow hbelow

/-- The calls of a declaration are open inside the brackets around it. -/
theorem declaration_calls_le (stack : List Bracket) {s left : Tokens} {t : Tree}
    (hd : DrawnFrom r.tokens s) (h : declaration s = .accepted t left) :
    stack.length + t.calls ≤ mostOpen stack (s.map Placed.kind) := by
  obtain ⟨taken, rfl, hreads⟩ := Accepts.declaration s hd t left h
  have hnests := (hreads.derived t List.mem_cons_self).nests_declaration hreads.kind?_eq
  have haccounts := hreads.accounts
  rw [Tree.leavesAmong, Tree.leavesAmong, List.append_nil] at haccounts
  have htaken := mostOpen_of_accounts haccounts rfl hd.left stack
  rw [List.map_append, mostOpen_append]
  rw [(hnests stack).2] at htaken
  exact Nat.le_trans htaken (Nat.le_max_left ..)

/-! ## All declarations of a block -/

variable (st : Setting) {limit : Nat} {outer : List Bracket}

/-- The calls of every declaration are open inside the brace of its block. -/
theorem declarations_calls_lt {inner : List Bracket} {s : Tokens} (hd : DrawnFrom r.tokens s)
    (h : InBrace limit outer inner s) :
    ∀ t ∈ (declarations st s).result, t.kind? = some .declaration → outer.length + t.calls < limit := by
  have tracks : TracksBrackets (InBrace limit outer) := InBrace.tracks
  replace hd := hd.skipBlank
  replace h := tracks.skipBlank h
  fun_induction declarations st s generalizing inner with
  | case1 => simp
  | case2 s _ t rest e _ _ => exact List.forall_mem_singleton.2 fun hleaf => by contradiction
  | case3 s _ t rest e _ _ hk ih =>
    rw [e] at hd h
    have hi : InBrace limit outer inner rest := h.inert (by rw [hk]; rfl) (by rw [hk]; rfl)
    refine List.forall_mem_cons.2 ⟨fun hleaf => ?_, ih hd.tail.skipBlank (tracks.skipBlank hi)⟩
    contradiction
  | case4 s _ t rest e _ _ _ d left hdecl _ ih =>
    rw [e] at hd h
    have hi := declaration_stays tracks h fun _ => declarationEnd_inBrace
    rw [hdecl] at hi
    have hleft : DrawnFrom _ left := hd.of_suffix (suffix_of_accepted declaration_advances hdecl)
    refine List.forall_mem_cons.2 ⟨fun _ => ?_, ih hleft.skipBlank (tracks.skipBlank hi)⟩
    -- the brace of the block is open around the calls, so with them it is still within the limit
    have hcalls := declaration_calls_le (inner ++ .brace :: outer) hd hdecl
    have hlimit : mostOpen (inner ++ .brace :: outer) ((t :: rest).map Placed.kind) ≤ limit := h
    rw [List.length_append, List.length_cons] at hcalls
    omega
  | case5 s _ t rest e _ hb _ f left hdecl _ ih =>
    rw [e] at hd h
    have hstays := declaration_stays tracks h fun _ => declarationEnd_inBrace
    rw [hdecl] at hstays
    obtain ⟨calls, hi⟩ := hstays
    obtain ⟨inner', hi⟩ := skipDeclaration_inBrace (Nat.zero_le _) hi
    have hleft : DrawnFrom _ (skipDeclaration 0 left).rest :=
      hd.tail.of_suffix (skipDeclaration_rejected hdecl hb)
    refine List.forall_mem_cons.2 ⟨fun herror => ?_, ih hleft.skipBlank (tracks.skipBlank hi)⟩
    cases herror

/-- In every block the calls of a declaration are fewer than the brackets that are open in the input. -/
theorem declarationBlock_calls_lt {all rest : Tokens} {brace : Placed} (hd : DrawnFrom r.tokens all)
    (hs : brace :: rest <:+ all) (hk : brace.kind = .opening .brace) :
    ∀ t ∈ (declarationBlock st brace.leaf rest).result.nodesBelow [.declaration],
      t.calls < mostOpen [] (all.map Placed.kind) := by
  intro t ht
  rw [(derived_declarationBlock st hd hs hk).nodesBelow_eq_nodesOf rfl (by decide) (by decide)] at ht
  obtain ⟨hmem, hkind⟩ := List.mem_filter.1 ht
  have hdrawn : DrawnFrom r.tokens rest := (hd.of_suffix hs).tail
  obtain ⟨front, rfl⟩ := hs
  -- the brackets around the block are those that its front leaves open
  have hin : InBrace (mostOpen [] ((front ++ brace :: rest).map Placed.kind))
      ((front.map Placed.kind).foldl bracketsBehind []) [] rest := by
    rw [InBrace, List.map_append, mostOpen_append, List.map_cons, mostOpen, hk,
      bracketsBehind_of_opens rfl]
    exact Nat.le_trans (Nat.le_max_right ..) (Nat.le_max_right ..)
  rcases List.mem_cons.1 hmem with rfl | hmem
  · contradiction
  · exact Nat.lt_of_le_of_lt (Nat.le_add_left ..)
      (declarations_calls_lt st hdrawn hin t hmem (eq_of_beq hkind))

end

end Grammar

/-- The calls of a declaration are fewer than the blocks that the text opens inside one another: the
    brace around the declaration is one of them as well. -/
theorem parseTokens_calls_lt (source : String) (text : List Char) (options : Options) :
    ∀ t ∈ (parseTokens source (tokenize source text options).tokens).tree.nodesBelow [.declaration],
      t.calls < nestingDepth text := by
  let r : Reading := ⟨source, (tokenize source text options).tokens⟩
  let st := setting source r.tokens
  have hd : DrawnFrom r.tokens (numbered r.tokens) := numbered_drawnFrom r.tokens
  have hmost : mostOpen [] ((numbered r.tokens).map Placed.kind) ≤ nestingDepth text := by
    obtain ⟨more, e⟩ := (numbered_prefix_tokens r.tokens).map Token.kind
    have h := mostOpen_tokenize source text options
    rw [← e, List.map_map, mostOpen_append] at h
    exact Nat.le_trans (Nat.le_max_left ..) (Nat.le_trans h (Nat.min_le_right ..))
  have hblocks : Traversal st (numbered r.tokens) fun t =>
      ∀ u ∈ t.nodesBelow [.declaration], u.calls < nestingDepth text := by
    refine .ofBlocks hd (by decide) (by decide) fun brace rest hs hk u hu => ?_
    exact Nat.lt_of_lt_of_le (declarationBlock_calls_lt st hd hs hk u hu) hmost
  exact forall_nodesBelow_node (by decide) _ (hblocks.statements (List.suffix_refl _))

end Stylesheet
