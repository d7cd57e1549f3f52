import Stylesheet.Proofs.Likeness.Value

/-!
# Alike declarations

Declarations of alike inputs are alike (`declaration_like`), and so is what a block holds, with the
problems that are reported in it (`declarations_like`). What is skipped is skipped token by token, each
with its own leaf, so alike inputs leave runs of different lengths in the rows of skipped tokens; no
blank changes how deep in brackets the skip stands.
-/

namespace Stylesheet

open Grammar Production

namespace Grammar

/-! ## Skipping, one token at a time -/

/-- What a skip does with a token: it stops in front of it, or behind it, or goes on at some depth. -/
inductive SkipStep where
  | before
  | behind
  | on (depth : Nat)

/-- A skip that decides by the kind of each token and its depth, and takes no notice of blanks. -/
structure SkipsBy (skip : Nat → Tokens → Skipped) (step : Nat → TokenKind → SkipStep) : Prop where
  nil : ∀ depth, skip depth [] = ⟨[], []⟩
  cons : ∀ depth t rest, skip depth (t :: rest) = match step depth t.kind with
    | .before => ⟨[], t :: rest⟩
    | .behind => ⟨[t.leaf], rest⟩
    | .on deeper => (skip deeper rest).cons t
  blank : ∀ depth, step depth .whitespace = .on depth

def declarationStep (depth : Nat) (k : TokenKind) : SkipStep :=
  if depth = 0 ∧ k = .closing .brace then .before
  else if depth = 0 ∧ k = .semicolon then .behind
  else if k.opens?.isSome then .on (depth + 1)
  else if k.isClosing then .on (depth - 1)
  else .on depth

theorem skipDeclaration_skipsBy : SkipsBy skipDeclaration declarationStep where
  nil _ := rfl
  cons depth t rest := by
    rw [skipDeclaration, declarationStep]
    split_ifs <;> rfl
  blank depth := by simp [declarationStep, TokenKind.opens?, TokenKind.isClosing]

/-- Blanks are skipped where they stand. -/
theorem SkipsBy.blanks {skip : Nat → Tokens → Skipped} {step : Nat → TokenKind → SkipStep}
    (h : SkipsBy skip step) {b : Tokens} (hb : Blank b) (depth : Nat) (s : Tokens) :
    skip depth (b ++ s) = ⟨b.map Placed.leaf ++ (skip depth s).leaves, (skip depth s).rest⟩ := by
  induction b with
  | nil => rfl
  | cons t b ih =>
    obtain ⟨ht, hb⟩ := List.forall_mem_cons.1 hb
    have hk : t.kind = .whitespace := eq_of_beq ht
    rw [List.cons_append, h.cons, hk, h.blank]
    dsimp only
    rw [ih hb]
    rfl

end Grammar

namespace Likeness

variable {L : Likeness}

/-- From alike inputs, the same is skipped. -/
theorem skip_like {skip : Nat → Tokens → Skipped} {step : Nat → TokenKind → SkipStep}
    (hskip : SkipsBy skip step) {s s' : Tokens} (h : L.InputLike s s') (depth : Nat) :
    L.RowLike (skip depth s).leaves (skip depth s').leaves ∧
      L.InputLike (skip depth s).rest (skip depth s').rest := by
  induction h generalizing depth with
  | nil =>
    rw [hskip.nil]
    exact ⟨.nil, .nil⟩
  | @cons t u r r' ht hw hs ih =>
    rw [hskip.cons, hskip.cons, ← ht.kind]
    split
    · exact ⟨.nil, .cons ht hw hs⟩
    · exact ⟨.cons ht.leaf .nil, hs⟩
    · rename_i deeper _
      exact ⟨.cons ht.leaf (ih deeper).1, (ih deeper).2⟩
  | run hb hs ih =>
    rw [hskip.blanks hb.left, hskip.blanks hb.right]
    exact ⟨.run hb (ih depth).1, (ih depth).2⟩

/-! ## One declaration -/

/-- The name of a property, where it has one. -/
theorem valueAhead_like {name name' : Option Placed}
    (hn : Option.Rel (fun t u => L.TokenLike t u ∧ t.kind ≠ .whitespace) name name') :
    L.ReadsLike (fun _ _ => True) (valueAhead name) (valueAhead name') := by
  intro s s' h
  unfold valueAhead
  rw [← h.isEmpty_eq, ← h.startsWith_eq]
  split
  · refine .rejected ?_ h
    cases hn with
    | none => exact ⟨rfl, .none⟩
    | some ht => exact ⟨congrArg Fault.Cause.noPropertyValue (ht.1.text ht.2), .some ht.1.span⟩
  · exact .accepted trivial h

theorem declarationEnd_like :
    L.ReadsLike (List.Forall₂ L.TreeLike) declarationEnd declarationEnd := by
  refine .bind (.take? (by decide)) fun semicolon semicolon' hs => ?_
  cases hs with
  | some hs => exact .pure (.cons hs.tree .nil)
  | none =>
    refine .bind .ahead fun s s' h => ?_
    rw [← h.isEmpty_eq, ← h.startsWith_eq]
    exact .ite (.pure .nil) (.reject fun _ _ _ => rfl)

theorem optional_like {t u : Option Tree} (h : Option.Rel L.LeafLike t u) :
    List.Forall₂ L.TreeLike t.toList u.toList := by
  cases h with
  | none => exact .nil
  | some h => exact .cons h.tree .nil

theorem declaration_like : L.ReadsLike L.TreeLike declaration declaration := by
  intro s s' h
  refine ReadsLike.bind_at (ReadsLike.ahead s s' h) fun a b r r' e hb hr => ?_
  cases e
  refine ReadsLike.bind_at (ReadsLike.take (by decide) (fun s s' h => by rw [h.found_eq]) s r' hr)
    fun name name' q q' e hname hq => ?_
  -- the property is named by a token that is no blank
  have hhead : Option.Rel (fun t u => L.TokenLike t u ∧ t.kind ≠ .whitespace) s.head? b.head? := by
    cases hb.front with
    | nil => exact .none
    | @cons t u r r' ht _ =>
      refine .some ⟨ht, fun hw => ?_⟩
      rw [take_cons, hw] at e
      contradiction
  refine ReadsLike.bind .blank (fun _ _ _ => .bind (.take (by decide) fun s s' h => by rw [h.found_eq])
    fun colon colon' hcolon => .bind .blank fun _ _ _ => .bind (valueAhead_like hhead) fun _ _ _ =>
    .bind (value_like false) fun v v' hv => .bind .blank fun _ _ _ => .bind (.take? (by decide))
    fun important important' hi => .bind .blank fun _ _ _ => .bind declarationEnd_like
    fun semicolon semicolon' hs => .pure ?_) q q' hq
  exact .node _ hname.tree.first (.cons hname.tree (.cons hcolon.tree (.cons hv
    (List.rel_append (optional_like hi) hs))))

/-! ## Blocks -/

variable (L) in
/-- The ends of alike inputs. -/
structure SettingLike (st st' : Setting) : Prop where
  source : st.source = st'.source
  stopIndex : L.index st.stopIndex st'.stopIndex
  stopSpan : L.span st.stopSpan st'.stopSpan

variable (L) in
/-- Alike results with alike problems, one for one. -/
structure ParsedLike {α β : Type} (R : α → β → Prop) (p : Parsed α) (q : Parsed β) : Prop where
  result : R p.result q.result
  problems : List.Forall₂ L.ProblemLike p.problems q.problems
  rest : L.InputLike p.rest q.rest

section

variable {α α' β β' : Type} {R : α → β → Prop}

theorem ParsedLike.map {S : α' → β' → Prop} {f : α → α'} {g : β → β'}
    (hfg : ∀ a b, R a b → S (f a) (g b)) {p : Parsed α} {q : Parsed β} (h : L.ParsedLike R p q) :
    L.ParsedLike S (p.map f) (q.map g) :=
  ⟨hfg _ _ h.result, h.problems, h.rest⟩

theorem ParsedLike.report {ps qs : List Problem} (hp : List.Forall₂ L.ProblemLike ps qs)
    {p : Parsed α} {q : Parsed β} (h : L.ParsedLike R p q) :
    L.ParsedLike R (p.report ps) (q.report qs) :=
  ⟨h.result, List.rel_append hp h.problems, h.rest⟩

theorem ParsedLike.cons {t u : Tree} (ht : L.TreeLike t u) {p q : Parsed (List Tree)}
    (h : L.ParsedLike (List.Forall₂ L.TreeLike) p q) :
    L.ParsedLike (List.Forall₂ L.TreeLike) (p.cons t) (q.cons u) :=
  ⟨.cons ht h.result, h.problems, h.rest⟩

end

section

variable {st st' : Setting} (hst : L.SettingLike st st')
include hst

theorem problem_like {f g : Fault} (h : L.FaultLike f g) :
    L.ProblemLike (st.problem f) (st'.problem g) := by
  refine ⟨congrArg Fault.Cause.kind h.cause, hst.source, ?_, ?_⟩
  · show List.foldl _ _ f.cause.params = List.foldl _ _ g.cause.params
    rw [h.cause]
  · have hp := h.place
    show L.span (f.place.getD st.stopSpan) (g.place.getD st'.stopSpan)
    generalize f.place = place at hp
    generalize g.place = place' at hp
    cases hp with
    | none => exact hst.stopSpan
    | some hp => exact hp

theorem position_like {s s' : Tokens} (h : L.InputLike s s') :
    L.index (st.position s) (st'.position s') := by
  cases h.front with
  | nil => exact hst.stopIndex
  | cons ht => exact ht.index

theorem declarations_like {s s' : Tokens} (h : L.InputLike s s') :
    L.ParsedLike (List.Forall₂ L.TreeLike) (declarations st s) (declarations st' s') := by
  refine h.byLength fun s s' h ih => ?_
  have hl := skipBlank_length_le s
  rw [declarations_eq, declarations_eq]
  obtain ⟨e, e'⟩ | ⟨t, r, u, r', e, e', ht, hw, hr⟩ := h.skipBlank_cases
  · rw [e, e']
    exact ⟨.nil, .cons (problem_like hst ⟨rfl, .none⟩) .nil, .nil⟩
  · rw [e, List.length_cons] at hl
    rw [e, e']
    dsimp only
    rw [← ht.kind]
    split
    · exact ⟨.cons ht.leaf.tree .nil, .nil, hr⟩
    · rename_i hb
      split
      · exact .cons ht.leaf.tree (ih r r' (by omega) hr)
      · have hd := declaration_like (t :: r) (u :: r') (.cons ht hw hr)
        generalize hdt : declaration (t :: r) = o at hd
        generalize declaration (u :: r') = o' at hd
        cases hd with
        | @accepted d d' left left' hd hleft =>
          have hc := declaration_consumes _ d left hdt
          rw [List.length_cons] at hc
          exact .cons hd (ih left left' (by omega) hleft)
        | @rejected f g left left' hf hleft =>
          obtain ⟨hrow, hrest⟩ := skip_like skipDeclaration_skipsBy hleft 0
          have hc := (skipDeclaration_rejected hdt hb).length_le
          exact .report (.cons (problem_like hst hf) .nil)
            (.cons (hrow.error (position_like hst hleft)) (ih _ _ (by omega) hrest))

theorem declarationBlock_like {brace brace' : Tree} (hb : L.LeafLike brace brace') {s s' : Tokens}
    (h : L.InputLike s s') :
    L.ParsedLike L.TreeLike (declarationBlock st brace s) (declarationBlock st' brace' s') :=
  (declarations_like hst h).map fun _ _ hc => .node _ hb.tree.first (.cons hb.tree hc)

end

end Likeness

end Stylesheet
