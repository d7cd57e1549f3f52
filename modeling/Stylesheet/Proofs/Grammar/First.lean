import Stylesheet.Proofs.Grammar.Reads

/-!
# Where trees begin

The productions of terms and of selectors give trees that begin at the token they read first
(`Heads`).
-/

namespace Stylesheet.Grammar

open Production

variable {α β : Type}

/-- What is accepted has a property. -/
def Yields (p : Production α) (Q : α → Prop) : Prop := ∀ s a rest, p s = .accepted a rest → Q a

theorem Yields.pure {Q : α → Prop} {a : α} (h : Q a) : Yields (pure a) Q := by
  intro s b rest e
  cases e
  exact h

theorem Yields.bind {Q : β → Prop} {p : Production α} {f : α → Production β}
    (h : ∀ a, Yields (f a) Q) : Yields (p >>= f) Q := by
  intro s b rest e
  obtain ⟨a, between, -, hf⟩ := bind_eq_accepted e
  exact h a between b rest hf

/-- A tree that is accepted begins at the next token. -/
def Heads (p : Production Tree) : Prop :=
  ∀ s a rest, p s = .accepted a rest → ∃ t left, s = t :: left ∧ a.first = t.index

theorem Heads.bind {p : Production Tree} {f : Tree → Production Tree} (hp : Heads p)
    (hf : ∀ a, Yields (f a) fun b => b.first = a.first) : Heads (p >>= f) := by
  intro s b rest e
  obtain ⟨a, between, hpa, hfb⟩ := bind_eq_accepted e
  obtain ⟨t, left, rfl, ha⟩ := hp s a between hpa
  exact ⟨t, left, rfl, (hf a between b rest hfb).trans ha⟩

theorem Heads.take (p : TokenKind → Bool) (cause : Tokens → Fault.Cause) :
    Heads (Production.take p cause) := by
  intro s a rest h
  cases s with
  | nil => contradiction
  | cons t left =>
    rw [take_cons] at h
    split at h
    · cases h
      exact ⟨t, _, rfl, rfl⟩
    · contradiction

/-! ## Terms -/

theorem term_heads (named : Bool) : Heads (term named) := by
  intro s a rest h
  rw [term_eq] at h
  cases s with
  | nil => contradiction
  | cons t left =>
    refine ⟨t, left, rfl, ?_⟩
    dsimp only at h
    split at h
    · obtain ⟨value, between, -, h⟩ := bind_eq_accepted h
      cases h
      rfl
    · split at h
      · rw [functionCall_eq] at h
        have hcall : Yields (callOf t.leaf) fun a => a.first = t.index := by
          apply Yields.bind
          intro close
          cases close with
          | some close => exact .pure rfl
          | none => exact .bind fun _ => .bind fun _ => .bind fun _ => .pure rfl
        exact Yields.bind (p := blank) (fun _ => hcall) left a rest h
      · split at h
        · cases h
          rfl
        · contradiction

/-! ## Selectors -/

theorem idSelector_heads : Heads idSelector := .bind (.take _ _) fun _ => .pure rfl

theorem classSelector_heads : Heads classSelector :=
  .bind (.take _ _) fun _ => .bind fun _ => .pure rfl

theorem attributeSelector_heads : Heads attributeSelector :=
  .bind (.take _ _) fun _ => .bind fun _ => .bind fun _ => .bind fun _ => .bind fun _ =>
    .bind fun _ => .pure rfl

theorem pseudoSelector_heads : Heads pseudoSelector :=
  .bind (.take _ _) fun _ => .bind fun _ => .bind fun _ => .pure rfl

theorem condition_heads : Heads condition := by
  intro s a rest h
  unfold condition at h
  split at h
  · exact classSelector_heads s a rest h
  · exact attributeSelector_heads s a rest h
  · exact pseudoSelector_heads s a rest h
  · exact idSelector_heads s a rest h

theorem namespacePrefix?_some {s rest : Tokens} {a : Tree}
    (h : namespacePrefix? s = .accepted (some a) rest) : ∃ t left, s = t :: left ∧ a.first = t.index := by
  unfold namespacePrefix? at h
  split at h
  · split at h
    · cases h
      exact ⟨_, _, rfl, rfl⟩
    · split at h <;> cases h
      exact ⟨_, _, rfl, rfl⟩
  · split at h <;> cases h
    exact ⟨_, _, rfl, rfl⟩
  · cases h

theorem namespacePrefix?_rest {s rest : Tokens} (h : namespacePrefix? s = .accepted none rest) :
    rest = s := by
  unfold namespacePrefix? at h
  split at h
  · split at h
    · cases h
    · split at h <;> cases h
      rfl
  · split at h <;> cases h
    rfl
  · cases h
    rfl

theorem elementName?_some {hasPrefix : Bool} {s rest : Tokens} {a : Tree}
    (h : elementName? hasPrefix s = .accepted (some a) rest) :
    ∃ t left, s = t :: left ∧ a.first = t.index := by
  obtain ⟨name, between, e, h⟩ := bind_eq_accepted h
  cases name with
  | none => cases hasPrefix <;> cases h
  | some name =>
    cases h
    cases s with
    | nil => cases e
    | cons t left =>
      rw [take?_cons] at e
      split at e <;> cases e
      exact ⟨t, _, rfl, rfl⟩

theorem elementName?_rest {s rest : Tokens} (h : elementName? false s = .accepted none rest) :
    rest = s := by
  obtain ⟨name, between, e, h⟩ := bind_eq_accepted h
  cases name with
  | some name => cases h
  | none =>
    cases h
    cases s with
    | nil =>
      cases e
      rfl
    | cons t left =>
      rw [take?_cons] at e
      split at e <;> cases e
      rfl

theorem conditions_cons {s rest : Tokens} {a : Tree} {more : List Tree}
    (h : conditions s = .accepted (a :: more) rest) : ∃ t left, s = t :: left ∧ a.first = t.index := by
  rw [conditions] at h
  split at h
  · split at h
    · contradiction
    · rename_i c left e
      obtain ⟨cs, -, he⟩ := map_eq_accepted h
      cases he
      exact condition_heads s a left e
  · cases h

theorem compound_heads : Heads compound := by
  intro s a rest h
  obtain ⟨nsPrefix, s₁, e₁, h⟩ := bind_eq_accepted h
  obtain ⟨element, s₂, e₂, h⟩ := bind_eq_accepted h
  obtain ⟨conditions, s₃, e₃, h⟩ := bind_eq_accepted h
  cases nsPrefix with
  | some nsPrefix =>
    cases h
    obtain ⟨t, left, e, hf⟩ := namespacePrefix?_some e₁
    exact ⟨t, left, e, hf⟩
  | none =>
    rw [namespacePrefix?_rest e₁] at e₂
    cases element with
    | some element =>
      cases h
      obtain ⟨t, left, e, hf⟩ := elementName?_some e₂
      exact ⟨t, left, e, hf⟩
    | none =>
      rw [elementName?_rest e₂] at e₃
      cases conditions with
      | nil => contradiction
      | cons part parts =>
        cases h
        obtain ⟨t, left, e, hf⟩ := conditions_cons e₃
        exact ⟨t, left, e, hf⟩

theorem selector_heads : Heads selector :=
  .bind compound_heads fun _ => .bind fun _ => .pure rfl

theorem selectorList_heads : Heads selectorList :=
  .bind selector_heads fun _ => .bind fun _ => .pure rfl

end Stylesheet.Grammar
