import Stylesheet.Tree

/-!
# The trees below a tree

Every tree that stands somewhere in a tree, from left to right, a node in front of what is below it;
those of some kinds among them (`nodesBelow`), and how many there are of a sort (`count`).
-/

namespace Stylesheet.Tree

mutual

/-- A tree and all trees below it. -/
def subtrees : Tree → List Tree
  | .leaf index => [.leaf index]
  | .node kind place children => .node kind place children :: subtreesAmong children

/-- The trees of a row and all trees below them. -/
def subtreesAmong : List Tree → List Tree
  | [] => []
  | t :: ts => t.subtrees ++ subtreesAmong ts

end

theorem subtreesAmong_eq (ts : List Tree) : subtreesAmong ts = ts.flatMap subtrees := by
  induction ts with
  | nil => rfl
  | cons t ts ih => rw [subtreesAmong, ih, List.flatMap_cons]

theorem mem_subtreesAmong {ts : List Tree} {u : Tree} :
    u ∈ subtreesAmong ts ↔ ∃ t ∈ ts, u ∈ t.subtrees := by
  rw [subtreesAmong_eq, List.mem_flatMap]

theorem self_mem_subtrees (t : Tree) : t ∈ t.subtrees := by
  cases t with
  | leaf => exact List.mem_cons_self
  | node => exact List.mem_cons_self

theorem mem_subtrees_of_child {t c u : Tree} (hc : c ∈ t.children) (hu : u ∈ c.subtrees) :
    u ∈ t.subtrees := by
  cases t with
  | leaf => contradiction
  | node kind place children => exact List.mem_cons_of_mem _ (mem_subtreesAmong.2 ⟨c, hc, hu⟩)

mutual

/-- What stands below a tree that stands below another one stands below that one. -/
theorem mem_subtrees_trans {t u v : Tree} (hu : u ∈ t.subtrees) (hv : v ∈ u.subtrees) :
    v ∈ t.subtrees := by
  cases t with
  | leaf index => rwa [List.mem_singleton.1 hu] at hv
  | node kind place children =>
    rcases List.mem_cons.1 hu with rfl | hu
    · exact hv
    · exact List.mem_cons_of_mem _ (mem_subtreesAmong_trans hu hv)

theorem mem_subtreesAmong_trans {ts : List Tree} {u v : Tree} (hu : u ∈ subtreesAmong ts)
    (hv : v ∈ u.subtrees) : v ∈ subtreesAmong ts := by
  cases ts with
  | nil => contradiction
  | cons t ts =>
    rcases List.mem_append.1 hu with hu | hu
    · exact List.mem_append_left _ (mem_subtrees_trans hu hv)
    · exact List.mem_append_right _ (mem_subtreesAmong_trans hu hv)

end

/-! ## Nodes of some kinds -/

/-- Whether a tree is a node of one of the kinds. -/
def isOf (kinds : List NodeKind) (t : Tree) : Bool := t.kind?.any kinds.contains

theorem isOf_iff {kinds : List NodeKind} {t : Tree} :
    t.isOf kinds = true ↔ ∃ kind ∈ kinds, t.kind? = some kind := by
  cases t with
  | leaf => simp [isOf, kind?]
  | node => simp [isOf, kind?]

theorem isOf_singleton (kind : NodeKind) (t : Tree) : t.isOf [kind] = (t.kind? == some kind) := by
  rw [Bool.eq_iff_iff, isOf_iff, beq_iff_eq]
  simp

theorem nodes_filter_isOf (t : Tree) (kinds : List NodeKind) :
    t.nodes.filter (isOf kinds) = t.children.filter (isOf kinds) := by
  rw [nodes, List.filter_filter]
  refine List.filter_congr fun u _ => ?_
  cases u with
  | leaf => rfl
  | node => exact Bool.and_true _

theorem children_filter_isOf (t : Tree) (kind : NodeKind) :
    t.children.filter (isOf [kind]) = t.nodesOf kind :=
  List.filter_congr fun u _ => isOf_singleton kind u

/-- The nodes of some kinds that stand anywhere in a tree, from left to right. -/
def nodesBelow (kinds : List NodeKind) (t : Tree) : List Tree := t.subtrees.filter (isOf kinds)

theorem mem_nodesBelow_of_subtree {kinds : List NodeKind} {t u v : Tree} (hu : u ∈ t.subtrees)
    (hv : v ∈ u.nodesBelow kinds) : v ∈ t.nodesBelow kinds := by
  obtain ⟨hv, hk⟩ := List.mem_filter.1 hv
  exact List.mem_filter.2 ⟨mem_subtrees_trans hu hv, hk⟩

theorem nodesBelow_leaf (kinds : List NodeKind) (index : Nat) :
    (leaf index).nodesBelow kinds = [] := rfl

theorem nodesBelow_node {kinds : List NodeKind} {kind : NodeKind} (h : kind ∉ kinds) (place : Nat)
    (children : List Tree) :
    (node kind place children).nodesBelow kinds = children.flatMap (nodesBelow kinds) := by
  have hk : isOf kinds (node kind place children) = false := by
    rw [← Bool.not_eq_true, isOf_iff]
    rintro ⟨k, hm, e⟩
    cases e
    exact h hm
  rw [nodesBelow, subtrees, List.filter_cons_of_neg (by rw [hk]; decide), subtreesAmong_eq,
    List.filter_flatMap]
  rfl

/-- A node of one of the kinds, with none of them below it. -/
theorem nodesBelow_self {kinds : List NodeKind} {kind : NodeKind} (h : kind ∈ kinds) {place : Nat}
    {children : List Tree} (hc : children.flatMap (nodesBelow kinds) = []) :
    (node kind place children).nodesBelow kinds = [node kind place children] := by
  have hk : isOf kinds (node kind place children) = true := isOf_iff.2 ⟨kind, h, rfl⟩
  rw [nodesBelow, subtrees, List.filter_cons_of_pos hk, subtreesAmong_eq, List.filter_flatMap]
  exact congrArg (_ :: ·) hc

/-- Only some of the trees have anything in them. -/
theorem flatMap_filter_eq {α : Type} {p : Tree → Bool} {f : Tree → List α} {ts : List Tree}
    (h : ∀ t ∈ ts, p t = false → f t = []) : (ts.filter p).flatMap f = ts.flatMap f := by
  induction ts with
  | nil => rfl
  | cons t ts ih =>
    obtain ⟨ht, hts⟩ := List.forall_mem_cons.1 h
    rw [List.flatMap_cons, List.filter_cons, ← ih hts]
    split
    · exact List.flatMap_cons
    · rename_i hp
      rw [ht (by simpa using hp), List.nil_append]

/-- Trees none of which has a node of the kinds strictly below. -/
theorem flatMap_nodesBelow {kinds : List NodeKind} {ts : List Tree}
    (h : ∀ t ∈ ts, t.nodesBelow kinds = if t.isOf kinds then [t] else []) :
    ts.flatMap (nodesBelow kinds) = ts.filter (isOf kinds) := by
  induction ts with
  | nil => rfl
  | cons t ts ih =>
    obtain ⟨ht, hts⟩ := List.forall_mem_cons.1 h
    rw [List.flatMap_cons, List.filter_cons, ih hts, ht]
    split
    · rfl
    · rfl

/-! ## Counting -/

/-- How many trees of a sort there are in a row of trees and below it. -/
def count (p : Tree → Bool) (ts : List Tree) : Nat := (subtreesAmong ts).countP p

section

variable {p : Tree → Bool}

@[simp] theorem count_nil : count p [] = 0 := rfl

theorem count_append (ts us : List Tree) : count p (ts ++ us) = count p ts + count p us := by
  rw [count, count, count, subtreesAmong_eq, subtreesAmong_eq, subtreesAmong_eq,
    List.flatMap_append, List.countP_append]

theorem count_cons (t : Tree) (ts : List Tree) : count p (t :: ts) = count p [t] + count p ts :=
  count_append [t] ts

theorem count_leaf (index : Nat) : count p [.leaf index] = if p (.leaf index) then 1 else 0 := by
  rw [count, subtreesAmong, subtreesAmong, subtrees, List.append_nil, List.countP_singleton]

theorem count_node (kind : NodeKind) (place : Nat) (children : List Tree) :
    count p [.node kind place children] =
      count p children + if p (.node kind place children) then 1 else 0 := by
  rw [count, subtreesAmong, subtreesAmong, subtrees, List.append_nil, List.countP_cons]
  rfl

end

end Stylesheet.Tree
