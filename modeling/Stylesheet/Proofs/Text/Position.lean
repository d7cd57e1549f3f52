import Stylesheet.Text.Position

/-!
# Places in a text

`Position.boundary` says where a place lies from the lines around it: how many lines end in front of
it, and how wide the text behind the last line end is. `Position.after` comes to the same place by
reading on (`after_eq_boundary`), as long as it never stops between a carriage return and its line
feed (`SplitsLineEnd`).
-/

namespace Stylesheet

/-- A line end of two characters lies across the two texts. -/
def SplitsLineEnd (front behind : List Char) : Prop :=
  front.getLast? = some '\r' ∧ behind.head? = some '\n'

namespace Position

/-- The number of lines that end in `front`, where `behind` follows. -/
def lineEnds (behind : List Char) : List Char → Nat
  | [] => 0
  | c :: front => (if endsLine c (front ++ behind) then 1 else 0) + lineEnds behind front

/-- What stands behind the last line end. -/
def lastLine (behind : List Char) : List Char → List Char
  | [] => []
  | c :: front => if lineEnds behind (c :: front) = 0 then c :: front else lastLine behind front

/-- The number of UTF-16 code units of a text. -/
def width : List Char → Nat
  | [] => 0
  | c :: rest => unitsUTF16 c + width rest

/-- The place between `front` and `behind`: lines and columns are counted from one. -/
def boundary (front behind : List Char) : Position :=
  ⟨1 + lineEnds behind front, 1 + width (lastLine behind front)⟩

/-! ## Reading on -/

theorem not_splitsLineEnd_nil (behind : List Char) : ¬ SplitsLineEnd [] behind := by
  intro h
  exact absurd h.1 (by simp)

theorem not_splitsLineEnd_of_cons {c : Char} {front behind : List Char}
    (h : ¬ SplitsLineEnd (c :: front) behind) : ¬ SplitsLineEnd front behind := by
  intro hs
  cases front with
  | nil => exact not_splitsLineEnd_nil behind hs
  | cons d front => exact h ⟨by rw [List.getLast?_cons_cons]; exact hs.1, hs.2⟩

/-- Whether a line ends at a character shows in what is read, unless the line end is split. -/
theorem endsLine_append {c : Char} {front behind : List Char}
    (h : ¬ SplitsLineEnd (c :: front) behind) :
    endsLine c (front ++ behind) = endsLine c front := by
  cases front with
  | cons d front => rfl
  | nil =>
    rw [List.nil_append]
    unfold endsLine
    by_cases hc : c = '\r'
    · subst hc
      have hb : behind.head? ≠ some '\n' := fun e => h ⟨rfl, e⟩
      simp [hb]
    · simp [hc]

theorem after_append {front behind : List Char} (h : ¬ SplitsLineEnd front behind) (p : Position) :
    p.after (front ++ behind) = (p.after front).after behind := by
  induction front generalizing p with
  | nil => rfl
  | cons c front ih =>
    have ih' := ih (not_splitsLineEnd_of_cons h)
    simp only [List.cons_append, after, endsLine_append h]
    split
    · exact ih' _
    · exact ih' _

theorem after_eq {front behind : List Char} (h : ¬ SplitsLineEnd front behind) (p : Position) :
    p.after front = ⟨p.line + lineEnds behind front,
      (if lineEnds behind front = 0 then p.column else 1) + width (lastLine behind front)⟩ := by
  induction front generalizing p with
  | nil => simp [lineEnds, lastLine, width]
  | cons c front ih =>
    have ih' := ih (not_splitsLineEnd_of_cons h)
    -- without a line end all characters stand on the last line
    have hw : lineEnds behind front = 0 → lastLine behind front = front := by
      intro h0
      cases front with
      | nil => rfl
      | cons d front => rw [lastLine, if_pos h0]
    rw [after, ← endsLine_append h]
    split
    · -- the line ends at `c`, so the column counts from the next line on
      rename_i he
      have hl : lineEnds behind (c :: front) = 1 + lineEnds behind front := by
        rw [lineEnds, if_pos he]
      have hne : ¬ 1 + lineEnds behind front = 0 := by omega
      rw [ih', hl, lastLine, hl, if_neg hne, if_neg hne]
      simp only [ite_self]
      congr 1
      omega
    · rename_i he
      rw [ih', lineEnds, if_neg he, lastLine, lineEnds, if_neg he]
      by_cases h0 : lineEnds behind front = 0
      · simp only [h0, hw h0, width, Nat.add_zero, ↓reduceIte, Nat.add_assoc]
      · simp only [h0, Nat.zero_add, ↓reduceIte]

/-- A place that splits no line end is where reading comes to. -/
theorem after_eq_boundary {front behind : List Char} (h : ¬ SplitsLineEnd front behind) :
    start.after front = boundary front behind := by
  rw [after_eq h, boundary]
  congr 1
  split <;> rfl

/-! ## Reading order -/

/-- `p` stands in front of `q`. -/
def Before (p q : Position) : Prop := p.line < q.line ∨ (p.line = q.line ∧ p.column < q.column)

theorem Before.trans {p q r : Position} (h : Before p q) (h' : Before q r) : Before p r := by
  unfold Before at *
  omega

theorem Before.ne {p q : Position} (h : Before p q) : p ≠ q := by
  intro e
  subst e
  unfold Before at h
  omega

theorem unitsUTF16_pos (c : Char) : 0 < unitsUTF16 c := by
  unfold unitsUTF16
  split <;> decide

/-- Every character moves the place on. -/
theorem before_after (p : Position) {text : List Char} (h : text ≠ []) : Before p (p.after text) := by
  induction text generalizing p with
  | nil => exact absurd rfl h
  | cons c rest ih =>
    have step : Before p (if endsLine c rest then ⟨p.line + 1, 1⟩
        else ⟨p.line, p.column + unitsUTF16 c⟩) := by
      have := unitsUTF16_pos c
      unfold Before
      split
      · exact Or.inl (Nat.lt_succ_self _)
      · exact Or.inr ⟨rfl, by simp only; omega⟩
    have e : p.after (c :: rest) = (if endsLine c rest then (⟨p.line + 1, 1⟩ : Position)
        else ⟨p.line, p.column + unitsUTF16 c⟩).after rest := by
      rw [after]
      split <;> rfl
    rw [e]
    cases rest with
    | nil => exact step
    | cons d rest => exact step.trans (ih _ (List.cons_ne_nil d rest))

theorem le_iff {p q : Position} :
    p.le q = true ↔ p.line < q.line ∨ (p.line = q.line ∧ p.column ≤ q.column) := by
  have hl := Nat.compare_eq_ite_lt p.line q.line
  have hc := Nat.compare_eq_ite_lt p.column q.column
  simp only [le, compare, hl, hc]
  split
  · simp_all
  · split
    · simp
      omega
    · split
      · simp
        omega
      · split
        · simp
          omega
        · simp
          omega

theorem le_refl (p : Position) : p.le p = true := le_iff.2 (Or.inr ⟨rfl, Nat.le_refl _⟩)

theorem le_trans {p q r : Position} (h : p.le q = true) (h' : q.le r = true) : p.le r = true := by
  rw [le_iff] at *
  omega

theorem Before.trans_le {p q r : Position} (h : Before p q) (h' : q.le r = true) : Before p r := by
  rw [le_iff] at h'
  unfold Before at *
  omega

theorem Before.of_le {p q r : Position} (h : p.le q = true) (h' : Before q r) : Before p r := by
  rw [le_iff] at h
  unfold Before at *
  omega

theorem Before.le {p q : Position} (h : Before p q) : p.le q = true := by
  rw [le_iff]
  unfold Before at h
  omega

/-! ## Boundaries in reading order -/

theorem lineEnds_append (front mid behind : List Char) :
    lineEnds behind (front ++ mid) = lineEnds (mid ++ behind) front + lineEnds behind mid := by
  induction front with
  | nil => rw [List.nil_append, lineEnds, Nat.zero_add]
  | cons c front ih => rw [List.cons_append, lineEnds, lineEnds, ih, List.append_assoc, Nat.add_assoc]

/-- Where no further line ends, the last line goes on. -/
theorem lastLine_append {mid behind : List Char} (h : lineEnds behind mid = 0)
    (front : List Char) : lastLine behind (front ++ mid) = lastLine (mid ++ behind) front ++ mid := by
  induction front with
  | nil =>
    rw [List.nil_append, lastLine, List.nil_append]
    cases mid with
    | nil => rfl
    | cons c mid => rw [lastLine, if_pos h]
  | cons c front ih =>
    have hl : lineEnds behind (c :: (front ++ mid)) = lineEnds (mid ++ behind) (c :: front) := by
      rw [← List.cons_append, lineEnds_append, h, Nat.add_zero]
    rw [List.cons_append, lastLine, lastLine, hl]
    split
    · rfl
    · exact ih

theorem width_append (a b : List Char) : width (a ++ b) = width a + width b := by
  induction a with
  | nil => rw [List.nil_append, width, Nat.zero_add]
  | cons c a ih => rw [List.cons_append, width, width, ih, Nat.add_assoc]

/-- Every character takes up room. -/
theorem width_pos {text : List Char} (h : text ≠ []) : 0 < width text := by
  cases text with
  | nil => contradiction
  | cons c rest =>
    have := unitsUTF16_pos c
    rw [width]
    omega

/-- Further on in a text the boundaries are further down. -/
theorem boundary_before (front : List Char) {mid : List Char} (hm : mid ≠ []) (behind : List Char) :
    (boundary front (mid ++ behind)).Before (boundary (front ++ mid) behind) := by
  rw [Before, boundary, boundary, lineEnds_append]
  by_cases h : lineEnds behind mid = 0
  · right
    have := width_pos hm
    rw [lastLine_append h, width_append]
    exact ⟨by rw [h]; rfl, by simp only; omega⟩
  · left
    simp only
    omega

theorem boundary_le (front mid behind : List Char) :
    (boundary front (mid ++ behind)).le (boundary (front ++ mid) behind) = true := by
  cases mid with
  | nil =>
    rw [List.append_nil, List.nil_append]
    exact le_refl _
  | cons c mid => exact (boundary_before front (List.cons_ne_nil c mid) behind).le

end Position

end Stylesheet
