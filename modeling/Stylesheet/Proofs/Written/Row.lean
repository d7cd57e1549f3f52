import Stylesheet.Proofs.Written.Shape

/-!
# Values as rows

`Value.row` is what a tree keeps of a value: the items that are no lists, side by side, each behind
its separator. The lists are found again by the strength of the separators alone, since a list holds
only what binds tighter (`combine_row`).
-/

namespace Stylesheet.Value

theorem strength_lt (s : Separator) : s.strength < 3 := by
  cases s <;> decide

theorem strength_inj {s t : Separator} (h : s.strength = t.strength) : s = t := by
  cases s <;> cases t <;> simp_all [Separator.strength]

theorem rank_le (v : Value) : v.rank ≤ 3 := by
  match v with
  | .list s _ => exact Nat.le_of_lt (strength_lt s)
  | .string _ | .number _ _ | .ident _ | .color _ | .url _ | .call _ _ | .named _ _ =>
    exact Nat.le_refl 3

theorem row_of_rank {v : Value} (h : v.rank = 3) : v.row = (v, []) := by
  match v, h with
  | .list s _, h => exact absurd h (Nat.ne_of_lt (strength_lt s))
  | .string _, _ | .number _ _, _ | .ident _, _ | .color _, _ | .url _, _ | .call _ _, _
  | .named _ _, _ => rfl

/-- A value that binds as a separator does is a list with this separator. -/
theorem exists_list_of_rank {v : Value} {s : Separator} (h : v.rank = s.strength) :
    ∃ items, v = .list s items := by
  have hs := strength_lt s
  match v, h with
  | .list t items, h => exact ⟨items, by rw [strength_inj h]⟩
  | .string _, h | .number _ _, h | .ident _, h | .color _, h | .url _, h | .call _ _, h
  | .named _ _, h =>
    simp only [rank] at h
    omega

/-! ## What a row holds -/

mutual

/-- What stands in a row: items that are no lists, behind separators at least as strong as the value
    itself binds. -/
theorem row_mem (named : Bool) (v : Value) (h : v.IsShaped named) :
    (IsShaped named v.row.1 ∧ v.row.1.rank = 3) ∧
      ∀ p ∈ v.row.2, v.rank ≤ p.1.strength ∧ IsShaped named p.2 ∧ p.2.rank = 3 := by
  match v, h with
  | .list s (v :: rest), h =>
    rw [IsShaped, ShapedItems] at h
    obtain ⟨hv, hs, hr⟩ := h.2
    obtain ⟨h₁, h₂⟩ := row_mem named v hv
    refine ⟨by rw [row]; exact h₁, fun p hp => ?_⟩
    rw [row, List.mem_append] at hp
    rcases hp with hp | hp
    · obtain ⟨hl, hn⟩ := h₂ p hp
      exact ⟨Nat.le_trans (Nat.le_of_lt hs) hl, hn⟩
    · exact rowTail_mem named s rest hr p hp
  | .list s [], h =>
    rw [IsShaped] at h
    exact absurd h.1 (by simp)
  | .string _, h | .number _ _, h | .ident _, h | .color _, h | .url _, h | .call _ _, h
  | .named _ _, h => exact ⟨⟨h, rfl⟩, by simp [row]⟩

theorem rowTail_mem (named : Bool) (s : Separator) (items : List Value)
    (h : ShapedItems named s.strength items) :
    ∀ p ∈ rowTail s items, s.strength ≤ p.1.strength ∧ IsShaped named p.2 ∧ p.2.rank = 3 := by
  match items, h with
  | [], _ => simp [rowTail]
  | v :: items, h =>
    rw [ShapedItems] at h
    obtain ⟨hv, hs, hr⟩ := h
    obtain ⟨h₁, h₂⟩ := row_mem named v hv
    intro p hp
    rw [rowTail, List.mem_cons, List.mem_append] at hp
    rcases hp with rfl | hp | hp
    · exact ⟨Nat.le_refl _, h₁⟩
    · obtain ⟨hl, hn⟩ := h₂ p hp
      exact ⟨Nat.le_trans (Nat.le_of_lt hs) hl, hn⟩
    · exact rowTail_mem named s items hr p hp

end

/-- What stands in the row of items with a separator between them. -/
theorem row_list_mem {named : Bool} {s : Separator} {items : List Value}
    (h : ShapedItems named s.strength items) :
    ∀ p ∈ (row (.list s items)).2, IsShaped named p.2 ∧ p.2.rank = 3 := by
  match items, h with
  | [], _ => simp [row]
  | v :: rest, h =>
    rw [ShapedItems] at h
    intro p hp
    rw [row, List.mem_append] at hp
    rcases hp with hp | hp
    · exact ((row_mem named v h.1).2 p hp).2
    · exact (rowTail_mem named s rest h.2.2 p hp).2

mutual

/-- A row can be said by its text where its value can. -/
theorem row_isClean {v : Value} (h : v.IsClean) : v.row.1.IsClean ∧ ∀ p ∈ v.row.2, p.2.IsClean := by
  match v, h with
  | .list s (v :: rest), h =>
    have hv := h.items v List.mem_cons_self
    have hr : ∀ w ∈ rest, w.IsClean := fun w hw => h.items w (List.mem_cons_of_mem v hw)
    obtain ⟨h₁, h₂⟩ := row_isClean hv
    rw [row]
    refine ⟨h₁, fun p hp => ?_⟩
    rcases List.mem_append.1 hp with hp | hp
    · exact h₂ p hp
    · exact rowTail_isClean s hr p hp
  | .list _ [], h | .string _, h | .number _ _, h | .ident _, h | .color _, h | .url _, h
  | .call _ _, h | .named _ _, h => exact ⟨h, by simp [row]⟩

theorem rowTail_isClean (s : Separator) {items : List Value} (h : ∀ v ∈ items, v.IsClean) :
    ∀ p ∈ rowTail s items, p.2.IsClean := by
  match items, h with
  | [], _ => simp [rowTail]
  | v :: items, h =>
    obtain ⟨h₁, h₂⟩ := row_isClean (h v List.mem_cons_self)
    intro p hp
    rw [rowTail, List.mem_cons, List.mem_append] at hp
    rcases hp with rfl | hp | hp
    · exact h₁
    · exact h₂ p hp
    · exact rowTail_isClean s (fun w hw => h w (List.mem_cons_of_mem v hw)) p hp

end

/-- The text of a row behind its first item. -/
def rowText (items : List (Separator × Value)) : List Char :=
  items.flatMap fun p => p.1.toText.toList ++ p.2.toText.toList

mutual

/-- The text of a value is that of its row. -/
theorem toText_row (v : Value) :
    v.toText.toList = v.row.1.toText.toList ++ rowText v.row.2 := by
  match v with
  | .list s (v :: rest) =>
    have hr : rowText (v.row.2 ++ rowTail s rest) = rowText v.row.2 ++ rowText (rowTail s rest) :=
      List.flatMap_append
    rw [row, toText, joined, String.toList_append, hr, ← joinedTail_rowTail s rest,
      ← List.append_assoc, ← toText_row v]
  | .list _ [] | .string _ | .number _ _ | .ident _ | .color _ | .url _ | .call _ _ | .named _ _ =>
    rw [row]
    · exact (List.append_nil _).symm
    · intro _ _ _ e
      cases e

theorem joinedTail_rowTail (s : Separator) (items : List Value) :
    (joinedTail s.toText items).toList = rowText (rowTail s items) := by
  match items with
  | [] => rfl
  | v :: rest =>
    have hr : rowText ((s, v.row.1) :: (v.row.2 ++ rowTail s rest)) =
        s.toText.toList ++ v.row.1.toText.toList ++ (rowText v.row.2 ++ rowText (rowTail s rest)) := by
      simp [rowText]
    rw [joinedTail, rowTail, hr, ← joinedTail_rowTail s rest, String.toList_append,
      String.toList_append, toText_row v]
    simp only [List.append_assoc]

end

/-! ## Grouping -/

theorem groups_of_forall {s : Separator} {xs : List (Separator × Value)} (h : ∀ p ∈ xs, p.1 ≠ s)
    (v : Value) : groups s v xs = [(v, xs)] := by
  induction xs generalizing v with
  | nil => rfl
  | cons p xs ih =>
    obtain ⟨t, w⟩ := p
    have ht : t ≠ s := h (t, w) List.mem_cons_self
    rw [groups, if_neg ht, ih (fun p hp => h p (List.mem_cons_of_mem _ hp))]

theorem groups_append {s : Separator} {xs : List (Separator × Value)} (h : ∀ p ∈ xs, p.1 ≠ s)
    (v w : Value) (ys : List (Separator × Value)) :
    groups s v (xs ++ (s, w) :: ys) = (v, xs) :: groups s w ys := by
  induction xs generalizing v with
  | nil => rw [List.nil_append, groups, if_pos rfl]
  | cons p xs ih =>
    obtain ⟨t, u⟩ := p
    have ht : t ≠ s := h (t, u) List.mem_cons_self
    rw [List.cons_append, groups, if_neg ht, ih (fun p hp => h p (List.mem_cons_of_mem _ hp))]

/-- The items of a list are the groups between its separator. -/
theorem groups_rowTail {named : Bool} {s : Separator} (v : Value) (items : List Value)
    (h : ShapedItems named s.strength (v :: items)) :
    groups s v.row.1 (v.row.2 ++ rowTail s items) = (v :: items).map row := by
  have inner {v : Value} (hv : v.IsShaped named) (hs : s.strength < v.rank) :
      ∀ p ∈ v.row.2, p.1 ≠ s := by
    intro p hp he
    subst he
    have hl := ((row_mem named v hv).2 p hp).1
    omega
  -- the separators inside an item are stronger than `s`, so a group ends with its item
  induction items generalizing v with
  | nil =>
    rw [ShapedItems] at h
    rw [rowTail, List.append_nil, groups_of_forall (inner h.1 h.2.1)]
    rfl
  | cons w items ih =>
    rw [ShapedItems] at h
    rw [rowTail, groups_append (inner h.1 h.2.1), ih w h.2.2]
    rfl

/-- Grouping at one separator, where the tighter ones are grouped already. -/
theorem grouped_row {named : Bool} {s : Separator}
    {inner : Value → List (Separator × Value) → Value}
    (hi : ∀ v, v.IsShaped named → s.strength < v.rank → inner v.row.1 v.row.2 = v) {v : Value}
    (h : v.IsShaped named) (hs : s.strength ≤ v.rank) : grouped s inner v.row.1 v.row.2 = v := by
  rcases Nat.lt_or_eq_of_le hs with hs | hs
  · have hg : groups s v.row.1 v.row.2 = [(v.row.1, v.row.2)] := by
      refine groups_of_forall ?_ _
      intro p hp he
      subst he
      have hl := ((row_mem named v h).2 p hp).1
      omega
    rw [grouped, hg]
    exact hi v h hs
  · obtain ⟨items, rfl⟩ := exists_list_of_rank hs.symm
    rw [IsShaped] at h
    match items, h with
    | [], h => exact absurd h.1 (by simp)
    | [_], h => exact absurd h.1 (by simp)
    | v :: w :: items, h =>
      have hm : (v :: w :: items).map (fun u => inner u.row.1 u.row.2) = v :: w :: items := by
        refine (List.map_congr_left fun u hu => ?_).trans (List.map_id _)
        obtain ⟨hu, hs⟩ := shapedItems_mem h.2 u hu
        exact hi u hu hs
      rw [grouped, row, groups_rowTail v (w :: items) h.2]
      simp only [List.map_cons, List.map_map] at hm ⊢
      exact congrArg (Value.list s) hm

/-- A row comes together as the value it was taken from. -/
theorem combine_row {named : Bool} {v : Value} (h : v.IsShaped named) :
    combine v.row.1 v.row.2 = v := by
  have slash (v : Value) (hv : v.IsShaped named) (hs : Separator.space.strength < v.rank) :
      grouped .slash (fun v _ => v) v.row.1 v.row.2 = v := by
    refine grouped_row (fun v _ hs => ?_) hv hs
    rw [row_of_rank (Nat.le_antisymm (rank_le v) hs)]
  have space (v : Value) (hv : v.IsShaped named) (hs : Separator.comma.strength < v.rank) :
      grouped .space (grouped .slash fun v _ => v) v.row.1 v.row.2 = v :=
    grouped_row slash hv hs
  exact grouped_row space h (Nat.zero_le _)

/-! ## Values from rows -/

/-- An item of a row: of the shape of values, and no list. -/
def IsItem (named : Bool) (v : Value) : Prop := v.IsShaped named ∧ v.rank = 3

/-- A value that comes together from a row, and binds at least as tight as a separator. -/
structure ComesFrom (named : Bool) (strength : Nat) (v : Value) (items : List (Separator × Value))
    (w : Value) : Prop where
  shaped : w.IsShaped named
  strength_le : strength ≤ w.rank
  row_eq : w.row = (v, items)

/-- A row is cut at one separator, and nothing is lost. -/
theorem groups_join (s : Separator) (v : Value) (items : List (Separator × Value)) :
    ∃ more others, groups s v items = (v, more) :: others ∧
      more ++ others.flatMap (fun g => (s, g.1) :: g.2) = items := by
  induction items generalizing v with
  | nil => exact ⟨[], [], rfl, rfl⟩
  | cons p items ih =>
    obtain ⟨t, w⟩ := p
    obtain ⟨more, others, e, hm⟩ := ih w
    rw [groups]
    split
    · rename_i ht
      exact ⟨[], _, rfl, by rw [e, ht, ← hm]; rfl⟩
    · rw [e]
      exact ⟨(t, w) :: more, others, rfl, by rw [← hm]; rfl⟩

/-- What holds for a row holds for its groups; the separator is in none of them. -/
theorem groups_forall {P : Value → Prop} {Q : Separator → Prop} {s : Separator} {v : Value}
    {items : List (Separator × Value)} (hv : P v) (hi : ∀ p ∈ items, P p.2 ∧ Q p.1) :
    ∀ g ∈ groups s v items, P g.1 ∧ ∀ p ∈ g.2, P p.2 ∧ Q p.1 ∧ p.1 ≠ s := by
  induction items generalizing v with
  | nil => simpa [groups] using hv
  | cons p items ih =>
    obtain ⟨t, w⟩ := p
    obtain ⟨⟨hw, ht⟩, hi⟩ := List.forall_mem_cons.1 hi
    have hrest := ih hw hi
    rw [groups]
    split
    · exact List.forall_mem_cons.2 ⟨⟨hv, by simp⟩, hrest⟩
    · rename_i hs
      obtain ⟨more, others, e, -⟩ := groups_join s w items
      rw [e] at hrest ⊢
      obtain ⟨hg, hothers⟩ := List.forall_mem_cons.1 hrest
      exact List.forall_mem_cons.2
        ⟨⟨hv, List.forall_mem_cons.2 ⟨⟨hw, ht, hs⟩, hg.2⟩⟩, hothers⟩

section

variable {Item : Value → Prop} {P : Nat → Value → List (Separator × Value) → Value → Prop}
  (weaken : ∀ {n v items w}, P (n + 1) v items w → P n v items w)
  (list : ∀ (s : Separator) (inner : Value → List (Separator × Value) → Value) (v : Value)
    (more : List (Separator × Value)) (g : Value × List (Separator × Value))
    (others : List (Value × List (Separator × Value))),
    (∀ k ∈ (v, more) :: g :: others, P (s.strength + 1) k.1 k.2 (inner k.1 k.2)) →
    P s.strength v (more ++ (g :: others).flatMap fun g => (s, g.1) :: g.2)
      (.list s (((v, more) :: g :: others).map fun k => inner k.1 k.2)))
include weaken list

/-- What holds of the groups between one separator holds of the value that they come together as. -/
theorem grouped_induction {Q : Separator → Prop} {s : Separator}
    {inner : Value → List (Separator × Value) → Value}
    (h : ∀ u more, Item u → (∀ p ∈ more, Item p.2 ∧ Q p.1 ∧ p.1 ≠ s) →
      P (s.strength + 1) u more (inner u more))
    {v : Value} {items : List (Separator × Value)} (hv : Item v)
    (hi : ∀ p ∈ items, Item p.2 ∧ Q p.1) : P s.strength v items (grouped s inner v items) := by
  have hg := groups_forall (s := s) hv hi
  obtain ⟨more, others, e, hj⟩ := groups_join s v items
  have hall : ∀ k ∈ (v, more) :: others, P (s.strength + 1) k.1 k.2 (inner k.1 k.2) := by
    intro k hk
    rw [← e] at hk
    exact h k.1 k.2 (hg k hk).1 (hg k hk).2
  rw [grouped, e, ← hj]
  cases others with
  | nil =>
    rw [List.flatMap_nil, List.append_nil]
    exact weaken (hall (v, more) List.mem_cons_self)
  | cons g others => exact list s inner v more g others hall

/-- What holds of single items, and of lists of what binds tighter, holds of the value that a row comes
    together as. The number is how tight the value binds at least. -/
theorem combine_induction (one : ∀ v, Item v → P 3 v [] v) {v : Value}
    {items : List (Separator × Value)} (hv : Item v) (hi : ∀ p ∈ items, Item p.2) :
    P 0 v items (combine v items) := by
  have slash (u : Value) (more : List (Separator × Value)) (hu : Item u)
      (hm : ∀ p ∈ more, Item p.2 ∧ p.1 ≠ .comma ∧ p.1 ≠ .space) :
      P Separator.slash.strength u more (grouped .slash (fun v _ => v) u more) := by
    refine grouped_induction weaken list (Q := fun t => t ≠ .comma ∧ t ≠ .space)
      (fun w rest hw hr => ?_) hu hm
    -- no separator is left
    have hnil : rest = [] := by
      refine List.eq_nil_iff_forall_not_mem.2 fun p hp => ?_
      obtain ⟨-, ⟨hc, hs⟩, hl⟩ := hr p hp
      cases h : p.1 <;> contradiction
    rw [hnil]
    exact one w hw
  have space (u : Value) (more : List (Separator × Value)) (hu : Item u)
      (hm : ∀ p ∈ more, Item p.2 ∧ p.1 ≠ .comma) :
      P Separator.space.strength u more
        (grouped .space (grouped .slash fun v _ => v) u more) := by
    refine grouped_induction weaken list (Q := fun t => t ≠ .comma) (fun w rest hw hr => ?_) hu hm
    exact slash w rest hw fun p hp => ⟨(hr p hp).1, (hr p hp).2⟩
  refine grouped_induction weaken list (s := .comma) (Q := fun _ => True) (fun w rest hw hr => ?_) hv
    fun p hp => ⟨hi p hp, trivial⟩
  exact space w rest hw fun p hp => ⟨(hr p hp).1, (hr p hp).2.2⟩

end

/-- Items come together as a value of which they are the row. -/
theorem combine_comesFrom {named : Bool} {v : Value} {items : List (Separator × Value)}
    (hv : IsItem named v) (hi : ∀ p ∈ items, IsItem named p.2) :
    ComesFrom named 0 v items (combine v items) := by
  refine combine_induction (fun h => ⟨h.shaped, Nat.le_of_succ_le h.strength_le, h.row_eq⟩)
    (fun s inner v more g others h => ?_)
    (fun v hv => ⟨hv.1, Nat.le_of_eq hv.2.symm, row_of_rank hv.2⟩) hv hi
  have tail (gs : List (Value × List (Separator × Value)))
      (hgs : ∀ g ∈ gs, ComesFrom named (s.strength + 1) g.1 g.2 (inner g.1 g.2)) :
      rowTail s (gs.map fun g => inner g.1 g.2) = gs.flatMap fun g => (s, g.1) :: g.2 := by
    induction gs with
    | nil => rfl
    | cons g gs ih =>
      obtain ⟨hw, hgs⟩ := List.forall_mem_cons.1 hgs
      rw [List.map_cons, rowTail, ih hgs, hw.row_eq]
      rfl
  obtain ⟨hfirst, hrest⟩ := List.forall_mem_cons.1 h
  refine ⟨⟨by simp, shapedItems_of_forall fun w hw => ?_⟩, Nat.le_refl _, ?_⟩
  · obtain ⟨k, hk, rfl⟩ := List.mem_map.1 hw
    exact ⟨(h k hk).shaped, (h k hk).strength_le⟩
  · rw [List.map_cons, row, hfirst.row_eq, tail _ hrest]

/-- The arguments that a value stands for. -/
theorem shapedItems_commaItems {named : Bool} {v : Value} (h : v.IsShaped named) :
    ShapedItems named Separator.comma.strength v.commaItems ∧
      row (.list .comma v.commaItems) = v.row := by
  have one (hr : Separator.comma.strength < v.rank) :
      ShapedItems named Separator.comma.strength [v] ∧ row (.list .comma [v]) = v.row := by
    refine ⟨⟨h, hr, trivial⟩, ?_⟩
    rw [row, rowTail, List.append_nil]
  match v, h with
  | .list .comma items, h =>
    rw [IsShaped] at h
    exact ⟨h.2, rfl⟩
  | .list .space _, _ | .list .slash _, _ | .string _, _ | .number _ _, _ | .ident _, _
  | .color _, _ | .url _, _ | .call _ _, _ | .named _ _, _ =>
    exact one (by simp [rank, Separator.strength])

end Stylesheet.Value
