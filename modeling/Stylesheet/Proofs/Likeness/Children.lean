import Stylesheet.Proofs.Likeness.Basic

/-!
# Children of alike trees

Alike trees have alike children of every production, in the same order (`TreeLike.nodesOf`). Where a
production keeps no blanks, their tokens are alike one by one as well (`NodeLike.tokens`).
-/

namespace Stylesheet

section

variable {α β γ : Type} {R : α → β → Prop} {l : List α} {l' : List β}

theorem map_eq_of_forall₂ (h : List.Forall₂ R l l') {f : α → γ} {g : β → γ}
    (hfg : ∀ a b, R a b → f a = g b) : l.map f = l'.map g := by
  induction h with
  | nil => rfl
  | cons h _ ih => rw [List.map_cons, List.map_cons, hfg _ _ h, ih]

theorem filterMap_eq_of_forall₂ (h : List.Forall₂ R l l') {f : α → Option γ} {g : β → Option γ}
    (hfg : ∀ a b, R a b → f a = g b) : l.filterMap f = l'.filterMap g := by
  induction h with
  | nil => rfl
  | cons h _ ih => rw [List.filterMap_cons, List.filterMap_cons, hfg _ _ h, ih]

theorem head?_rel (h : List.Forall₂ R l l') : Option.Rel R l.head? l'.head? := by
  cases h with
  | nil => exact .none
  | cons h _ => exact .some h

end

namespace Likeness

variable {L : Likeness}

variable (L) in
/-- Alike nodes of one production. -/
def NodeLike (kind : NodeKind) (t u : Tree) : Prop := t.kind? = some kind ∧ L.TreeLike t u

namespace TreeLike

variable {t u : Tree}

theorem kind?_eq (h : L.TreeLike t u) : t.kind? = u.kind? := by
  cases h <;> rfl

/-- The children of one sort, of which leaves are none. -/
theorem filter (h : L.TreeLike t u) {p : Tree → Bool} (hp : ∀ i, p (.leaf i) = false)
    (hpp : ∀ t u, t.kind? = u.kind? → p t = p u) :
    List.Forall₂ L.TreeLike (t.children.filter p) (u.children.filter p) := by
  have hleaves (is : List Nat) : (is.map Tree.leaf).filter p = [] := by
    refine List.filter_eq_nil_iff.2 fun t ht => ?_
    obtain ⟨i, -, rfl⟩ := List.mem_map.1 ht
    rw [hp i]
    exact Bool.false_ne_true
  cases h with
  | leaf => exact .nil
  | node kind hp h => exact List.rel_filter (fun {t u} ht => iff_of_eq (congrArg (· = true) (hpp t u ht.kind?_eq))) h
  | skipped hp h =>
    rw [Tree.children, Tree.children, hleaves, hleaves]
    exact .nil
  | headed hk hp hij h =>
    rw [Tree.children, Tree.children, hleaves, hleaves]
    exact .nil

theorem nodes (h : L.TreeLike t u) : List.Forall₂ L.TreeLike t.nodes u.nodes :=
  h.filter (fun _ => rfl) fun t u hk => by cases t <;> cases u <;> first | rfl | contradiction

theorem nodesOf (h : L.TreeLike t u) (kind : NodeKind) :
    List.Forall₂ (L.NodeLike kind) (t.nodesOf kind) (u.nodesOf kind) := by
  refine (List.forall₂_and_left _ _).2 ⟨fun t ht => eq_of_beq (List.mem_filter.1 ht).2, ?_⟩
  exact h.filter (fun _ => rfl) fun t u hk => by rw [hk]

theorem child? (h : L.TreeLike t u) (kind : NodeKind) :
    Option.Rel (L.NodeLike kind) (t.child? kind) (u.child? kind) := by
  rw [Tree.child?, Tree.child?, ← List.head?_filter, ← List.head?_filter]
  exact head?_rel (h.nodesOf kind)

end TreeLike

/-- The tokens among alike children. -/
theorem tokens_like {ts us : List Tree} (h : List.Forall₂ L.TreeLike ts us) :
    List.Forall₂ L.index (ts.filterMap Tree.index?) (us.filterMap Tree.index?) :=
  List.rel_filterMap (fun _ _ ht => by
    cases ht with
    | leaf h => exact .some h
    | _ => exact .none) h

namespace NodeLike

variable {kind : NodeKind} {t u : Tree}

theorem children (h : L.NodeLike kind t u) (hk : isLoose kind = false) :
    List.Forall₂ L.TreeLike t.children u.children := by
  obtain ⟨hkind, h⟩ := h
  cases h with
  | leaf => contradiction
  | node _ _ h => exact h
  | skipped => cases hkind; contradiction
  | headed hk' => cases hkind; rw [hk] at hk'; contradiction

theorem tokens (h : L.NodeLike kind t u) (hk : isLoose kind = false) :
    List.Forall₂ L.index t.tokens u.tokens :=
  tokens_like (h.children hk)

end NodeLike

theorem leavesLike_of_forall₂ {is js : List Nat} (h : List.Forall₂ L.index is js) :
    L.LeavesLike is js := by
  induction h with
  | nil => exact .nil
  | cons h _ ih => exact .cons h ih

theorem tokens_leaves (kind : NodeKind) (place : Nat) (is : List Nat) :
    (Tree.node kind place (is.map Tree.leaf)).tokens = is := by
  rw [Tree.tokens, Tree.children, List.filterMap_map]
  exact List.filterMap_some

/-- The tokens of a pseudo-class: the first ones are alike, whatever blanks follow. -/
theorem NodeLike.pseudo_tokens {t u : Tree} (h : L.NodeLike .pseudoSelector t u) :
    (t.tokens = [] ∧ u.tokens = []) ∨ ∃ i j is js, t.tokens = i :: is ∧ u.tokens = j :: js ∧
      L.index i j ∧ L.LeavesLike is js := by
  obtain ⟨hkind, h⟩ := h
  cases h with
  | leaf => contradiction
  | skipped => cases hkind
  | headed _ _ hij h => exact Or.inr ⟨_, _, _, _, tokens_leaves .., tokens_leaves .., hij, h⟩
  | @node _ _ _ ts us _ h =>
    have htokens := tokens_like h
    rw [Tree.tokens, Tree.tokens, Tree.children, Tree.children]
    generalize ts.filterMap Tree.index? = is at htokens
    generalize us.filterMap Tree.index? = js at htokens
    cases htokens with
    | nil => exact Or.inl ⟨rfl, rfl⟩
    | cons hij h => exact Or.inr ⟨_, _, _, _, rfl, rfl, hij, leavesLike_of_forall₂ h⟩

end Likeness

end Stylesheet
