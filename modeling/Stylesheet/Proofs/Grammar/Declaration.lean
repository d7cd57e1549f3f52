import Stylesheet.Proofs.Grammar.Equations
import Stylesheet.Proofs.Grammar.Value

/-!
# What blocks are read from

A declaration is read like every production; the block around it goes on where one is given up, and
keeps what is skipped below an error node (`reads_broken`).
-/

namespace Stylesheet.Grammar

open Computability Production

/-- The skipped tokens of `s` are all kept. -/
def Skipped.Keeps (k : Skipped) (s : Tokens) : Prop :=
  ∃ taken, s = taken ++ k.rest ∧ k.leaves = taken.map Placed.leaf

namespace Skipped

theorem keeps_nil (s : Tokens) : Keeps ⟨[], s⟩ s := ⟨[], rfl, rfl⟩

theorem keeps_one (t : Placed) (rest : Tokens) : Keeps ⟨[t.leaf], rest⟩ (t :: rest) := ⟨[t], rfl, rfl⟩

theorem Keeps.cons {k : Skipped} {s : Tokens} (h : k.Keeps s) (t : Placed) :
    (k.cons t).Keeps (t :: s) := by
  obtain ⟨taken, e, hl⟩ := h
  exact ⟨t :: taken, congrArg (t :: ·) e, congrArg (t.leaf :: ·) hl⟩

end Skipped

open Skipped in
theorem skipDeclaration_keeps : ∀ (s : Tokens) (depth : Nat), (skipDeclaration depth s).Keeps s
  | [], _ => keeps_nil []
  | t :: rest, depth => by
    have step (d : Nat) : ((skipDeclaration d rest).cons t).Keeps (t :: rest) :=
      (skipDeclaration_keeps rest d).cons t
    rw [skipDeclaration]
    split
    · exact keeps_nil (t :: rest)
    · split
      · exact keeps_one t rest
      · split
        · exact step _
        · split
          · exact step _
          · exact step _

open Skipped in
theorem skipRule_keeps : ∀ (s : Tokens) (depth : Nat), (skipRule depth s).Keeps s
  | [], _ => keeps_nil []
  | t :: rest, depth => by
    have step (d : Nat) : ((skipRule d rest).cons t).Keeps (t :: rest) :=
      (skipRule_keeps rest d).cons t
    rw [skipRule]
    split
    · exact step _
    · split
      · split
        · exact keeps_one t rest
        · exact step _
      · exact step _

open Skipped in
theorem skipStatement_keeps : ∀ (s : Tokens) (depth : Nat), (skipStatement depth s).Keeps s
  | [], _ => keeps_nil []
  | t :: rest, depth => by
    have step (d : Nat) : ((skipStatement d rest).cons t).Keeps (t :: rest) :=
      (skipStatement_keeps rest d).cons t
    rw [skipStatement]
    split
    · exact keeps_nil (t :: rest)
    · split
      · exact keeps_one t rest
      · split
        · exact step _
        · split
          · split
            · exact keeps_one t rest
            · exact step _
          · exact step _

/-- What a production that goes on behind faults makes of the tokens in front of what it leaves. -/
def Follows (tokens : List Token) (form : Language Tree) (s rest : Tokens) (row : List Tree)
    (rs : List Recovery) : Prop :=
  ∃ taken, s = taken ++ rest ∧ Reads tokens form taken row rs

section

variable {tokens : List Token}

/-- Blanks at the front belong to what is behind them. -/
theorem Follows.skipBlank {form : Language Tree} {s rest : Tokens} {row : List Tree}
    {rs : List Recovery} (h : Follows tokens form (Tokens.skipBlank s) rest row rs) :
    Follows tokens form s rest row rs := by
  obtain ⟨b, hb, e⟩ := exists_blank s
  obtain ⟨taken, e', hr⟩ := h
  exact ⟨b ++ taken, by rw [List.append_assoc, ← e']; exact e, hr.blank hb⟩

theorem Follows.widen {kinds others : List NodeKind} {s rest : Tokens} {row : List Tree}
    {rs : List Recovery} (h : Follows tokens (nodeIn kinds) s rest row rs) (hk : kinds ⊆ others) :
    Follows tokens (nodeIn others) s rest row rs := by
  obtain ⟨taken, e, hr⟩ := h
  exact ⟨taken, e, hr.widen hk⟩

/-- One part of a block in front of the others. -/
theorem Follows.before {form : Language Tree} {forms : List (Language Tree)} {s left rest : Tokens}
    {row rows : List Tree} {rs qs : List Recovery} (h : Follows tokens form s left row rs)
    (h' : Follows tokens (form∗ :: forms).prod left rest rows qs) :
    Follows tokens (form∗ :: forms).prod s rest (row ++ rows) (rs ++ qs) := by
  obtain ⟨taken, e, hr⟩ := h
  obtain ⟨taken', e', hr'⟩ := h'
  exact ⟨taken ++ taken', by rw [e, e', List.append_assoc], hr.star_before hr'⟩

/-- Where a production was given up, the tokens that it took are in no tree, and those that are
    skipped are below an error node. -/
theorem reads_broken {s left : Tokens} {k : Skipped} (hs : DrawnFrom tokens s) (hl : left <:+ s)
    (hk : k.Keeps left) (place : Nat) :
    Follows tokens (nodeOf .error) s k.rest [.node .error place k.leaves] [⟨s, left, k.rest⟩] := by
  obtain ⟨given, rfl⟩ := hl
  obtain ⟨taken, rfl, e⟩ := hk
  refine ⟨given ++ taken, (List.append_assoc _ _ _).symm, ?_⟩
  rw [e]
  exact Reads.error given hs.right.left k.rest place

theorem Accepts.valueAhead (name : Option Placed) :
    Accepts tokens (valueAhead name) fun taken _ => taken = [] := by
  intro s _ a rest h
  unfold Grammar.valueAhead at h
  split at h
  · contradiction
  · cases h
    exact ⟨[], rfl, rfl⟩

theorem Accepts.declarationEnd :
    Accepts tokens declarationEnd fun taken row =>
      Reads tokens (optional (leafOf tokens (· == .semicolon))) taken row [] := by
  apply Accepts.bind (.take? _)
  intro taken semicolon hsemicolon
  cases semicolon with
  | some semicolon =>
    apply Accepts.pure
    rw [List.append_nil]
    exact Reads.present hsemicolon
  | none =>
    cases (show taken = [] from hsemicolon)
    apply Accepts.bind .ahead
    intro taken s ht
    cases ht
    exact .ite (.pure .absent) .reject

theorem Accepts.declaration :
    Accepts tokens declaration fun taken t => Reads tokens (nodeOf .declaration) taken [t] [] := by
  apply Accepts.bind .ahead
  intro taken s ht
  cases ht
  apply Accepts.bind (.take _ _)
  intro _ name hname
  apply Accepts.bind .blank
  intro _ _ hb
  apply Accepts.bind (.take _ _)
  intro _ colon hcolon
  apply Accepts.bind .blank
  intro _ _ hc
  apply Accepts.bind (.valueAhead _)
  intro taken _ ht
  cases ht
  apply Accepts.bind (.value false)
  intro _ v hv
  apply Accepts.bind .blank
  intro _ _ hd
  apply Accepts.bind (.take? _)
  intro _ important himportant
  apply Accepts.bind .blank
  intro _ _ he
  apply Accepts.bind .declarationEnd
  intro _ semicolon hsemicolon
  apply Accepts.pure
  have hrow : Reads tokens (production (leafOf tokens) .declaration) _ _ [] :=
    hname.cons ((hcolon.cons ((hv.cons ((himportant.optional.cons
      (hsemicolon.last.blank he)).blank hd)).blank hc)).blank hb)
  exact hrow.node (by simp) _

/-- The content of a block, with the brace that closes it. -/
def blockContent (tokens : List Token) : Language Tree :=
  [(nodeIn [.declaration, .error] + leafOf tokens (· == .semicolon))∗,
    optional (leafOf tokens (· == .closing .brace))].prod

/-- A block whose brace is missing. -/
theorem reads_unclosed (part : Language Tree) :
    Reads tokens [part∗, optional (leafOf tokens (· == .closing .brace))].prod [] [] [] :=
  Reads.star_nil.cons Reads.absent.last

/-- The brace that closes a block. -/
theorem reads_closed (part : Language Tree) {t : Placed} {rest : Tokens}
    (hs : DrawnFrom tokens (t :: rest)) (hk : t.kind = .closing .brace) :
    Reads tokens [part∗, optional (leafOf tokens (· == .closing .brace))].prod [t] [t.leaf] [] := by
  have hclose : Reads tokens (leafOf tokens (· == .closing .brace)) [t] [t.leaf] [] :=
    .leaf (hs t List.mem_cons_self) (beq_iff_eq.2 hk)
  exact Reads.star_nil.cons hclose.present.last

theorem declarations_follows (st : Setting) (s : Tokens) (hs : DrawnFrom tokens s) :
    Follows tokens (blockContent tokens) s (declarations st s).rest (declarations st s).result
      (declarationRecoveries s) := by
  have hd : DrawnFrom tokens (Tokens.skipBlank s) := hs.skipBlank
  apply Follows.skipBlank
  -- one case for each kind of token that a declaration, or the end of the block, may begin with
  fun_induction declarationRecoveries s with
  | case1 s _ h =>
    rw [declarations_eq, h]
    exact ⟨[], rfl, reads_unclosed _⟩
  | case2 s _ t rest h _ hk =>
    rw [h] at hd
    rw [declarations_eq, h]
    dsimp only
    rw [if_pos hk]
    exact ⟨[t], rfl, reads_closed _ hd hk⟩
  | case3 s _ t rest h _ hk hk' ih =>
    rw [h] at hd
    rw [declarations_eq, h]
    dsimp only
    rw [if_neg hk, if_pos hk']
    have hsemicolon : Reads tokens (leafOf tokens (· == .semicolon)) [t] [t.leaf] [] :=
      .leaf (hd t List.mem_cons_self) (beq_iff_eq.2 hk')
    exact .before ⟨[t], rfl, hsemicolon.inr⟩ (ih hd.tail hd.tail.skipBlank).skipBlank
  | case4 s _ t rest h _ hk hk' d left hd' _ ih =>
    rw [h] at hd
    rw [declarations_eq, h]
    dsimp only
    rw [if_neg hk, if_neg hk', hd']
    obtain ⟨taken, e, hreads⟩ := Accepts.declaration _ hd d left hd'
    have hleft : DrawnFrom tokens left := (e ▸ hd).right
    have hnode : Reads tokens (nodeIn [.declaration, .error]) taken [d] [] :=
      hreads.widen (by simp)
    exact .before ⟨taken, e, hnode.inl⟩ (ih hleft hleft.skipBlank).skipBlank
  | case5 s _ t rest h _ hk hk' f left hd' _ ih =>
    rw [h] at hd
    rw [declarations_eq, h]
    dsimp only
    rw [if_neg hk, if_neg hk', hd']
    have hl : left <:+ t :: rest := by
      have ha := declaration_advances (t :: rest)
      rw [hd'] at ha
      exact ha
    obtain ⟨taken, e, hreads⟩ :=
      reads_broken hd hl (skipDeclaration_keeps left 0) (st.position left)
    have hrest : DrawnFrom tokens (skipDeclaration 0 left).rest := (e ▸ hd).right
    have hnode : Reads tokens (nodeIn [.declaration, .error]) taken _ _ := hreads.widen (by simp)
    exact .before ⟨taken, e, hnode.inl⟩ (ih hrest hrest.skipBlank).skipBlank

/-- A block behind its opening brace, with the brace. -/
theorem declarationBlock_follows (st : Setting) {brace : Tree} {front s : Tokens}
    (hs : DrawnFrom tokens s)
    (hbrace : Reads tokens (leafOf tokens (· == .opening .brace)) front [brace] []) :
    Follows tokens (nodeOf .declarationBlock) (front ++ s) (declarationBlock st brace s).rest
      [(declarationBlock st brace s).result] (declarationRecoveries s) := by
  obtain ⟨taken, e, hreads⟩ := declarations_follows st s hs
  refine ⟨front ++ taken, by rw [List.append_assoc]; exact congrArg (front ++ ·) e, ?_⟩
  have hrow : Reads tokens (production (leafOf tokens) .declarationBlock) (front ++ taken)
      (brace :: (declarations st s).result) (declarationRecoveries s) := hbrace.cons hreads
  exact hrow.node (by simp) _

end

end Stylesheet.Grammar
