import Stylesheet.Proofs.Written.Normal

/-!
# The shape of values

The shape that is common to all values that come out of a text (`Value.IsShaped`): the grouping of
values in normal form, with any numbers and any characters in the texts. A call may bear the name of
an address if a string stands first among its arguments and something stands behind the string, since
only the string alone makes it an address. What a text can say of such a value is a condition on its
numbers and texts (`Value.IsClean`).
-/

namespace Stylesheet

namespace Value

mutual

/-- The first item of a value that is no list, and the further ones behind their separators. -/
def row : Value → Value × List (Separator × Value)
  | .list separator (v :: rest) => ((row v).1, (row v).2 ++ rowTail separator rest)
  | v => (v, [])

def rowTail (separator : Separator) : List Value → List (Separator × Value)
  | [] => []
  | v :: rest => (separator, (row v).1) :: ((row v).2 ++ rowTail separator rest)

end

/-- Arguments that begin with a string and go on behind it. -/
def OpensQuoted (arguments : List Value) : Prop :=
  ∃ s p items, row (.list .comma arguments) = (.string s, p :: items)

mutual

/-- The shape of a value, or of an argument if it may be `named`. -/
def IsShaped (named : Bool) : Value → Prop
  | .string _ | .color _ | .url _ => True
  | .number _ unit => ∀ u ∈ unit, u.toList ≠ []
  | .ident name => name.toList ≠ []
  | .call name arguments =>
    name.toList ≠ [] ∧ colorCall? name arguments = none ∧
      (sameWord name "url" = true → OpensQuoted arguments) ∧
      ShapedItems true Separator.comma.strength arguments
  | .named name value =>
    named = true ∧ name.toList ≠ [] ∧ value.rank = 3 ∧ IsShaped false value
  | .list separator items => 2 ≤ items.length ∧ ShapedItems named separator.strength items

/-- Values of the shape that all bind tighter than `strength`. -/
def ShapedItems (named : Bool) (strength : Nat) : List Value → Prop
  | [] => True
  | v :: rest => IsShaped named v ∧ strength < v.rank ∧ ShapedItems named strength rest

end

mutual

/-- The texts in a value: the contents of strings and addresses, names, and units. -/
def texts : Value → List String
  | .string content => [content]
  | .number _ unit => unit.toList
  | .ident name => [name]
  | .color _ => []
  | .url address => [address]
  | .call name arguments => name :: textsAll arguments
  | .named name value => name :: texts value
  | .list _ items => textsAll items

def textsAll : List Value → List String
  | [] => []
  | v :: rest => texts v ++ textsAll rest

end

/-- A value that its text can say: its numbers read back, and no text holds the null character. -/
structure IsClean (v : Value) : Prop where
  numbers : ∀ x ∈ v.numbers, x.IsFinite ∧ x.ReadsBack
  texts : ∀ s ∈ v.texts, nul ∉ s.toList

instance (v : Value) : Decidable v.IsClean :=
  decidable_of_iff ((∀ x ∈ v.numbers, x.IsFinite ∧ x.ReadsBack) ∧ ∀ s ∈ v.texts, nul ∉ s.toList)
    ⟨fun ⟨h, h'⟩ => ⟨h, h'⟩, fun ⟨h, h'⟩ => ⟨h, h'⟩⟩

theorem mem_numbersAll {items : List Value} {x : Single} :
    x ∈ numbersAll items ↔ ∃ v ∈ items, x ∈ v.numbers := by
  induction items with
  | nil => simp [numbersAll]
  | cons v items ih => simp [numbersAll, ih]

theorem mem_textsAll {items : List Value} {s : String} :
    s ∈ textsAll items ↔ ∃ v ∈ items, s ∈ v.texts := by
  induction items with
  | nil => simp [textsAll]
  | cons v items ih => simp [textsAll, ih]

namespace IsClean

theorem items {separator : Separator} {items : List Value} (h : IsClean (.list separator items)) :
    ∀ v ∈ items, v.IsClean := fun v hv =>
  ⟨fun x hx => h.numbers x (mem_numbersAll.2 ⟨v, hv, hx⟩),
    fun s hs => h.texts s (mem_textsAll.2 ⟨v, hv, hs⟩)⟩

theorem arguments {name : String} {arguments : List Value} (h : IsClean (.call name arguments)) :
    nul ∉ name.toList ∧ IsClean (.list .comma arguments) :=
  ⟨h.texts name List.mem_cons_self,
    ⟨h.numbers, fun s hs => h.texts s (List.mem_cons_of_mem name hs)⟩⟩

theorem named {name : String} {v : Value} (h : IsClean (.named name v)) :
    nul ∉ name.toList ∧ v.IsClean :=
  ⟨h.texts name List.mem_cons_self,
    ⟨h.numbers, fun s hs => h.texts s (List.mem_cons_of_mem name hs)⟩⟩

end IsClean

theorem shapedItems_mem {named : Bool} {strength : Nat} {items : List Value}
    (h : ShapedItems named strength items) : ∀ v ∈ items, v.IsShaped named ∧ strength < v.rank := by
  induction items with
  | nil => simp
  | cons v items ih =>
    rw [ShapedItems] at h
    intro w hw
    rcases List.mem_cons.1 hw with rfl | hw
    · exact ⟨h.1, h.2.1⟩
    · exact ih h.2.2 w hw

theorem shapedItems_of_forall {named : Bool} {strength : Nat} {items : List Value}
    (h : ∀ v ∈ items, v.IsShaped named ∧ strength < v.rank) : ShapedItems named strength items := by
  induction items with
  | nil => exact trivial
  | cons v items ih =>
    obtain ⟨hv, hs⟩ := h v List.mem_cons_self
    exact ⟨hv, hs, ih fun w hw => h w (List.mem_cons_of_mem v hw)⟩

/-! ## Values in normal form -/

mutual

theorem IsNormal.isShaped {named : Bool} {v : Value} (h : v.IsNormal named) :
    v.IsShaped named := by
  match v, h with
  | .string _, _ | .color _, _ | .url _, _ => exact trivial
  | .number _ unit, h =>
    rw [IsNormal] at h
    exact fun u hu => (h.2 u hu).ne_nil
  | .ident name, h =>
    rw [IsNormal] at h
    exact h.ne_nil
  | .call name arguments, h =>
    rw [IsNormal] at h
    have noUrl (hu : sameWord name "url" = true) : OpensQuoted arguments := by
      rw [h.2.1] at hu
      contradiction
    exact ⟨h.1.ne_nil, h.2.2.1, noUrl, NormalItems.shapedItems h.2.2.2⟩
  | .named name value, h =>
    rw [IsNormal] at h
    exact ⟨h.1, h.2.1.ne_nil, h.2.2.1, IsNormal.isShaped h.2.2.2⟩
  | .list separator items, h =>
    rw [IsNormal] at h
    exact ⟨h.1, NormalItems.shapedItems h.2⟩

theorem NormalItems.shapedItems {named : Bool} {strength : Nat} {items : List Value}
    (h : NormalItems named strength items) : ShapedItems named strength items := by
  match items, h with
  | [], _ => exact trivial
  | v :: items, h =>
    rw [NormalItems] at h
    exact ⟨IsNormal.isShaped h.1, h.2.1, NormalItems.shapedItems h.2.2⟩

end

mutual

/-- The numbers of a value in normal form are finite, and no text holds the null character. -/
theorem IsNormal.finite_noNul {named : Bool} {v : Value} (h : v.IsNormal named) :
    (∀ x ∈ v.numbers, x.IsFinite) ∧ ∀ s ∈ v.texts, nul ∉ s.toList := by
  match v, h with
  | .string content, h | .url content, h =>
    rw [IsNormal] at h
    simpa [numbers, texts] using h
  | .color _, _ => simp [numbers, texts]
  | .number _ unit, h =>
    rw [IsNormal] at h
    simpa [numbers, texts, h.1] using fun u hu => (h.2 u hu).noNul
  | .ident name, h =>
    rw [IsNormal] at h
    simpa [numbers, texts] using h.noNul
  | .call name arguments, h =>
    rw [IsNormal] at h
    simpa [numbers, texts, h.1.noNul] using NormalItems.finite_noNul h.2.2.2
  | .named name value, h =>
    rw [IsNormal] at h
    simpa [numbers, texts, h.2.1.noNul] using IsNormal.finite_noNul h.2.2.2
  | .list separator items, h =>
    rw [IsNormal] at h
    simpa [numbers, texts] using NormalItems.finite_noNul h.2

theorem NormalItems.finite_noNul {named : Bool} {strength : Nat} {items : List Value}
    (h : NormalItems named strength items) :
    (∀ x ∈ numbersAll items, x.IsFinite) ∧ ∀ s ∈ textsAll items, nul ∉ s.toList := by
  match items, h with
  | [], _ => simp [numbersAll, textsAll]
  | v :: items, h =>
    rw [NormalItems] at h
    obtain ⟨hv, hs⟩ := IsNormal.finite_noNul h.1
    obtain ⟨hi, ht⟩ := NormalItems.finite_noNul h.2.2
    simp only [numbersAll, textsAll, List.mem_append]
    exact ⟨fun x hx => hx.elim (hv x) (hi x), fun s h => h.elim (hs s) (ht s)⟩

end

theorem IsNormal.isClean {named : Bool} {v : Value} (h : v.IsNormal named)
    (hb : ∀ x ∈ v.numbers, x.ReadsBack) : v.IsClean :=
  ⟨fun x hx => ⟨h.finite_noNul.1 x hx, hb x hx⟩, h.finite_noNul.2⟩

end Value

end Stylesheet
