import Stylesheet.Proofs.Grammar.Stable
import Stylesheet.Proofs.Likeness.Basic

/-!
# Alike values

Values of alike inputs are alike (`value_like`). Where terms are separated by a blank, the first of a run
stands for all of it.
-/

namespace Stylesheet.Likeness

open Grammar Production

variable {L : Likeness}

theorem equalsSign?_like {s s' : Tokens} (h : L.InputLike s s') :
    Option.Rel (fun x y => L.LeafLike x.1 y.1 ∧ L.InputLike x.2 y.2) (equalsSign? s)
      (equalsSign? s') := by
  unfold equalsSign?
  obtain ⟨e, e'⟩ | ⟨t, r, u, r', e, e', ht, -, hr⟩ := h.skipBlank_cases
  · rw [e, e']
    exact .none
  · rw [e, e']
    dsimp only
    rw [← ht.kind]
    split
    · exact .some ⟨ht.leaf, hr.skipBlank⟩
    · exact .none

theorem argumentName?_like {named : Bool} {t u : Placed} {r r' : Tokens} (h : L.TokenLike t u)
    (hr : t.kind ≠ .whitespace → L.InputLike r r') :
    Option.Rel (fun x y => L.LeafLike x.1 y.1 ∧ L.InputLike x.2 y.2) (argumentName? named t r)
      (argumentName? named u r') := by
  unfold argumentName?
  rw [← h.kind]
  split
  · rename_i hi
    refine equalsSign?_like (hr fun hw => ?_)
    rw [hw, Bool.and_eq_true_iff] at hi
    exact absurd hi.2 (by decide)
  · exact .none

theorem blankLeaf_like {s s' : Tokens} (h : L.InputLike s s') :
    List.Forall₂ L.TreeLike (blankLeaf s) (blankLeaf s') := by
  cases h.front with
  | nil => exact .nil
  | @cons t u r r' ht _ =>
    have hb : Tokens.isBlank u = Tokens.isBlank t :=
      congrArg (· == TokenKind.whitespace) ht.kind.symm
    rw [blankLeaf, blankLeaf, hb]
    split
    · exact .cons ht.leaf.tree .nil
    · exact .nil

/-- A function call is alike where its arguments are. -/
theorem functionCall_like_at {function function' : Tree} (hf : L.LeafLike function function')
    {s s' : Tokens} (h : L.InputLike s s') (hv : ∀ r r' : Tokens, r.length ≤ s.length →
      L.InputLike r r' → L.OutcomeLike L.TreeLike (value true r) (value true r')) :
    L.OutcomeLike L.TreeLike (functionCall function s) (functionCall function' s') := by
  refine ReadsLike.bind_at (ReadsLike.blank s s' h) fun _ _ r r' hb _ hr => ?_
  have hl : r.length ≤ s.length := by
    cases hb
    exact skipBlank_length_le s
  refine ReadsLike.bind_at (ReadsLike.take? (by decide) r r' hr) fun close close' q q' hc hclose hq => ?_
  cases hclose with
  | some hclose => exact .accepted (.node _ hf.tree.first (.cons hf.tree (.cons hclose.tree .nil))) hq
  | none =>
    have hl' : q.length ≤ s.length :=
      Nat.le_trans (suffix_of_accepted (Advances.take? _) hc).length_le hl
    refine ReadsLike.bind_at (hv q q' hl' hq) fun arguments arguments' p p' _ ha hp => ?_
    exact ReadsLike.bind .blank (fun _ _ _ =>
      .bind (.take (by decide) fun s s' h => by rw [h.found_eq]) fun close close' hclose =>
        .pure (.node _ hf.tree.first (.cons hf.tree (.cons ha (.cons hclose.tree .nil))))) p p' hp

/-- A term is alike where the terms and values of shorter inputs are. -/
theorem term_like_at {named : Bool} {s s' : Tokens} (h : L.InputLike s s')
    (ht : ∀ r r' : Tokens, r.length < s.length → L.InputLike r r' →
      L.OutcomeLike L.TreeLike (term false r) (term false r'))
    (hv : ∀ r r' : Tokens, r.length < s.length → L.InputLike r r' →
      L.OutcomeLike L.TreeLike (value true r) (value true r')) :
    L.OutcomeLike L.TreeLike (term named s) (term named s') := by
  cases h.front with
  | nil =>
    rw [term_eq]
    exact .rejected (h.fault rfl) .nil
  | @cons t u r r' htu hr =>
    have hname : Option.Rel _ (argumentName? named t r) (argumentName? named u r') :=
      argumentName?_like htu hr
    have hfault : L.FaultLike (Tokens.unexpected (t :: r) "value")
        (Tokens.unexpected (u :: r') "value") := h.fault (by rw [h.found_eq])
    rw [term_cons, term_cons, ← htu.kind]
    generalize hn : argumentName? named t r = name at hname
    generalize argumentName? named u r' = name' at hname
    cases hname with
    | @some x y hxy =>
      have hb : x.2.length < (t :: r).length :=
        Nat.lt_succ_of_le (argumentName?_suffix hn).1.length_le
      exact ReadsLike.bind_at (ht x.2 y.2 hb hxy.2) fun v v' p p' _ hv hp =>
        .accepted (.node _ htu.index (.cons htu.leaf.tree (.cons hxy.1.tree (.cons hv .nil)))) hp
    | none =>
      dsimp only
      split
      · rename_i f hk
        exact functionCall_like_at htu.leaf (hr (by simp [hk])) fun q q' hq =>
          hv q q' (Nat.lt_succ_of_le hq)
      · split
        · rename_i hs
          refine .accepted (.node _ htu.index (.cons htu.leaf.tree .nil)) (hr fun hw => ?_)
          rw [hw] at hs
          contradiction
        · exact .rejected hfault h

/-- What follows a term is alike where terms are, and where what follows is for shorter inputs. -/
theorem terms_like_at {named : Bool} {s s' : Tokens} (h : L.InputLike s s')
    (ht : ∀ r r' : Tokens, r.length ≤ s.length → L.InputLike r r' →
      L.OutcomeLike L.TreeLike (term named r) (term named r'))
    (hts : ∀ r r' : Tokens, r.length < s.length → L.InputLike r r' →
      L.OutcomeLike (List.Forall₂ L.TreeLike) (terms named r) (terms named r')) :
    L.OutcomeLike (List.Forall₂ L.TreeLike) (terms named s) (terms named s') := by
  have hl := skipBlank_length_le s
  rw [terms_eq, terms_eq]
  obtain ⟨e, e'⟩ | ⟨t, r, u, r', e, e', htu, hw, hr⟩ := h.skipBlank_cases
  · rw [e, e']
    exact .accepted .nil .nil
  · have hall : L.InputLike (t :: r) (u :: r') := .cons htu hw hr
    rw [e, List.length_cons] at hl
    rw [e, e']
    dsimp only
    rw [← htu.kind]
    split
    · refine ReadsLike.bind_at (ReadsLike.blank r r' hr) fun _ _ q q' hb _ hq => ?_
      have hq' : q.length ≤ r.length := by
        cases hb
        exact skipBlank_length_le r
      refine ReadsLike.bind_at (ht q q' (by omega) hq) fun next next' p p' hn hnext hp => ?_
      have hc := term_consumes named q next p hn
      exact ReadsLike.bind_at (hts p p' (by omega) hp) fun more more' v v' _ hmore hv =>
        .accepted (.cons htu.leaf.tree (.cons hnext hmore)) hv
    · split
      · refine ReadsLike.bind_at (ht (t :: r) (u :: r') hl hall) fun next next' p p' hn hnext hp => ?_
        have hc := term_consumes named (t :: r) next p hn
        rw [List.length_cons] at hc
        exact ReadsLike.bind_at (hts p p' (by omega) hp) fun more more' v v' _ hmore hv =>
          .accepted (List.rel_append (blankLeaf_like h) (.cons hnext hmore)) hv
      · exact .accepted .nil hall

/-- A value is alike where its terms are. -/
theorem value_like_at {named : Bool} {s s' : Tokens}
    (ht : L.OutcomeLike L.TreeLike (term named s) (term named s'))
    (hts : ∀ r r' : Tokens, r.length < s.length → L.InputLike r r' →
      L.OutcomeLike (List.Forall₂ L.TreeLike) (terms named r) (terms named r')) :
    L.OutcomeLike L.TreeLike (value named s) (value named s') := by
  rw [value_eq, value_eq]
  refine ReadsLike.bind_at ht fun first first' r r' hf hfirst hr => ?_
  have hl := term_consumes named s first r hf
  exact ReadsLike.bind_at (hts r r' hl hr) fun more more' p p' _ hmore hp =>
    .accepted (.node _ hfirst.first (.cons hfirst hmore)) hp

theorem value_like (named : Bool) : L.ReadsLike L.TreeLike (value named) (value named) := by
  intro s s' h
  refine (values_induction
    (P := fun named s => ∀ s', L.InputLike s s' →
      L.OutcomeLike L.TreeLike (term named s) (term named s'))
    (Q := fun named s => ∀ s', L.InputLike s s' →
      L.OutcomeLike (List.Forall₂ L.TreeLike) (terms named s) (terms named s'))
    (R := fun named s => ∀ s', L.InputLike s s' →
      L.OutcomeLike L.TreeLike (value named s) (value named s')) ?_ ?_ ?_ named s).2.2 s' h
  · intro named s ht hv s' h
    exact term_like_at h (fun r r' hr => ht r hr r') fun r r' hr => hv r hr r'
  · intro named s ht hts s' h
    exact terms_like_at h (fun r r' hr => ht r hr r') fun r r' hr => hts r hr r'
  · intro named s ht hts s' h
    exact value_like_at (ht s' h) fun r r' hr => hts r hr r'

end Stylesheet.Likeness
