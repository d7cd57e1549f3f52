import Stylesheet.Grammar.Production

/-!
# The leaves of a tree

Which tokens a tree holds, from left to right, and which of them stand below an error node. A stretch
of tokens is accounted for by a row of trees if each of them is a leaf, or blank, or lost
(`Accounts`); the tokens keep their order, so none of them is a leaf twice.
-/

namespace Stylesheet

namespace Tree

mutual

/-- The tokens that a tree holds. -/
def leaves : Tree → List Nat
  | .leaf index => [index]
  | .node _ _ children => leavesAmong children

/-- The tokens that a row of trees holds. -/
def leavesAmong : List Tree → List Nat
  | [] => []
  | t :: ts => t.leaves ++ leavesAmong ts

end

mutual

/-- The tokens that a tree holds in error nodes. -/
def errorLeaves : Tree → List Nat
  | .leaf _ => []
  | .node kind _ children =>
    if kind = .error then leavesAmong children else errorLeavesAmong children

/-- The tokens that a row of trees holds in error nodes. -/
def errorLeavesAmong : List Tree → List Nat
  | [] => []
  | t :: ts => t.errorLeaves ++ errorLeavesAmong ts

end

theorem leavesAmong_append (ts us : List Tree) :
    leavesAmong (ts ++ us) = leavesAmong ts ++ leavesAmong us := by
  induction ts with
  | nil => rfl
  | cons t ts ih => rw [List.cons_append, leavesAmong, ih, leavesAmong, List.append_assoc]

/-- The leaves of a tree stand together among those of its row. -/
theorem infix_leavesAmong {t : Tree} {ts : List Tree} (h : t ∈ ts) : t.leaves <:+: leavesAmong ts := by
  obtain ⟨front, behind, rfl⟩ := List.append_of_mem h
  rw [leavesAmong_append, leavesAmong]
  exact ⟨_, _, List.append_assoc ..⟩

theorem leaves_subset {t : Tree} {ts : List Tree} (h : t ∈ ts) : t.leaves ⊆ leavesAmong ts :=
  (infix_leavesAmong h).subset

theorem errorLeavesAmong_append (ts us : List Tree) :
    errorLeavesAmong (ts ++ us) = errorLeavesAmong ts ++ errorLeavesAmong us := by
  induction ts with
  | nil => rfl
  | cons t ts ih =>
    rw [List.cons_append, errorLeavesAmong, ih, errorLeavesAmong, List.append_assoc]

theorem leavesAmong_leaf (ts : Tokens) : leavesAmong (ts.map Placed.leaf) = ts.map Placed.index := by
  induction ts with
  | nil => rfl
  | cons t ts ih => rw [List.map_cons, leavesAmong, ih, Placed.leaf, leaves]; rfl

theorem errorLeavesAmong_leaf (ts : Tokens) : errorLeavesAmong (ts.map Placed.leaf) = [] := by
  induction ts with
  | nil => rfl
  | cons t ts ih => rw [List.map_cons, errorLeavesAmong, ih, Placed.leaf, errorLeaves]; rfl

end Tree

/-- What becomes of a stretch of tokens: the leaves among them, those in error nodes, and those that
    are lost. Only a blank may be left out without being lost. -/
inductive Accounts : Tokens → List Nat → List Nat → Tokens → Prop
  | nil : Accounts [] [] [] []
  | leaf (t : Placed) {ts leaves errors lost} (h : Accounts ts leaves errors lost) :
      Accounts (t :: ts) (t.index :: leaves) errors lost
  | error (t : Placed) {ts leaves errors lost} (h : Accounts ts leaves errors lost) :
      Accounts (t :: ts) (t.index :: leaves) (t.index :: errors) lost
  | blank {t : Placed} (ht : Tokens.isBlank t = true) {ts leaves errors lost}
      (h : Accounts ts leaves errors lost) : Accounts (t :: ts) leaves errors lost
  | lost (t : Placed) {ts leaves errors lost} (h : Accounts ts leaves errors lost) :
      Accounts (t :: ts) leaves errors (t :: lost)

namespace Accounts

variable {ts us gone more : Tokens} {ls ms es fs : List Nat}

theorem append (h : Accounts ts ls es gone) (h' : Accounts us ms fs more) :
    Accounts (ts ++ us) (ls ++ ms) (es ++ fs) (gone ++ more) := by
  induction h with
  | nil => exact h'
  | leaf t _ ih => exact ih.leaf t
  | error t _ ih => exact ih.error t
  | blank ht _ ih => exact ih.blank ht
  | lost t _ ih => exact ih.lost t

theorem ofBlank (h : ∀ t ∈ ts, Tokens.isBlank t = true) : Accounts ts [] [] [] := by
  induction ts with
  | nil => exact .nil
  | cons t ts ih =>
    have hts : ∀ u ∈ ts, Tokens.isBlank u = true := fun u hu => h u (List.mem_cons_of_mem t hu)
    exact (ih hts).blank (h t List.mem_cons_self)

theorem ofLost (ts : Tokens) : Accounts ts [] [] ts := by
  induction ts with
  | nil => exact .nil
  | cons t ts ih => exact ih.lost t

theorem ofLeaves (ts : Tokens) : Accounts ts (ts.map Placed.index) [] [] := by
  induction ts with
  | nil => exact .nil
  | cons t ts ih => exact ih.leaf t

/-- Tokens that are skipped are all kept, below an error node. -/
theorem ofSkipped (ts : Tokens) : Accounts ts (ts.map Placed.index) (ts.map Placed.index) [] := by
  induction ts with
  | nil => exact .nil
  | cons t ts ih => exact ih.error t

theorem leaves_sublist (h : Accounts ts ls es gone) : ls.Sublist (ts.map Placed.index) := by
  induction h with
  | nil => exact .slnil
  | leaf t _ ih => exact ih.cons_cons t.index
  | error t _ ih => exact ih.cons_cons t.index
  | @blank t _ _ _ _ _ _ ih => exact ih.cons t.index
  | lost t _ ih => exact ih.cons t.index

theorem lost_sublist (h : Accounts ts ls es gone) : gone.Sublist ts := by
  induction h with
  | nil => exact .slnil
  | leaf t _ ih => exact ih.cons t
  | error t _ ih => exact ih.cons t
  | @blank t _ _ _ _ _ _ ih => exact ih.cons t
  | lost t _ ih => exact ih.cons_cons t

/-- A token that is not blank is a leaf or lost. -/
theorem mem_or_mem (h : Accounts ts ls es gone) {t : Placed} (ht : t ∈ ts)
    (hb : Tokens.isBlank t = false) : t.index ∈ ls ∨ t ∈ gone := by
  induction h with
  | nil => exact absurd ht List.not_mem_nil
  | leaf u _ ih =>
    rcases List.mem_cons.1 ht with e | ht
    · exact Or.inl (e ▸ List.mem_cons_self)
    · exact (ih ht).imp_left (List.mem_cons_of_mem _)
  | error u _ ih =>
    rcases List.mem_cons.1 ht with e | ht
    · exact Or.inl (e ▸ List.mem_cons_self)
    · exact (ih ht).imp_left (List.mem_cons_of_mem _)
  | blank hu _ ih =>
    rcases List.mem_cons.1 ht with e | ht
    · rw [← e, hb] at hu
      contradiction
    · exact ih ht
  | lost u _ ih =>
    rcases List.mem_cons.1 ht with e | ht
    · exact Or.inr (e ▸ List.mem_cons_self)
    · exact (ih ht).imp_right (List.mem_cons_of_mem _)

/-- No lost token is a leaf. -/
theorem disjoint (h : Accounts ts ls es gone) (hn : (ts.map Placed.index).Nodup) :
    ∀ t ∈ gone, t.index ∉ ls := by
  induction h with
  | nil => simp
  | leaf u h ih | error u h ih =>
    obtain ⟨hu, hn⟩ := List.nodup_cons.1 hn
    intro t ht hl
    rcases List.mem_cons.1 hl with e | hl
    · exact hu (e ▸ List.mem_map_of_mem (h.lost_sublist.subset ht))
    · exact ih hn t ht hl
  | blank _ _ ih => exact ih (List.nodup_cons.1 hn).2
  | lost u h ih =>
    obtain ⟨hu, hn⟩ := List.nodup_cons.1 hn
    intro t ht hl
    rcases List.mem_cons.1 ht with e | ht
    · exact hu (h.leaves_sublist.subset (e ▸ hl))
    · exact ih hn t ht hl

end Accounts

end Stylesheet
