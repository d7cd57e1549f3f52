import Stylesheet.Proofs.Grammar.Progress
import Stylesheet.Proofs.Grammar.StableProductions

/-!
# Where faults lie

A production that stops gives a fault at a token of those that it was given, and never at one behind
the tokens that it leaves (`Points`). A fault of a declaration without a value lies at its name, all
others at the token that did not fit. None of them is that of a block without its brace, which only
the loops around the productions report.
-/

namespace Stylesheet

namespace Tokens

/-- The place of the next token. -/
def place? (s : Tokens) : Option Span := s.head?.map (·.token.span)

end Tokens

/-- Whether the input ended in a block. -/
def Fault.Cause.isUnclosed : Fault.Cause → Bool
  | .missingCloseBrace => true
  | _ => false

namespace Outcome

variable {α β : Type}

/-- What is left is an end of `front`, and a fault lies in front of it or where it begins; it is not
    that of a block without its brace. -/
def LiesIn (front : Tokens) : Outcome α → Prop
  | .accepted _ rest => rest <:+ front
  | .rejected f rest => f.cause.isUnclosed = false ∧
    ∃ u : Tokens, rest <:+ u ∧ u <:+ front ∧ f.place = u.place?

namespace LiesIn

variable {front : Tokens} {o : Outcome α}

theorem map (h : o.LiesIn front) (f : α → β) : (o.map f).LiesIn front := by
  cases o <;> exact h

/-- A fault at the tokens that are left. -/
theorem fault {f : Fault} {rest : Tokens} (h : rest <:+ front) (hp : f.place = rest.place?)
    (hc : f.cause.isUnclosed = false) : (Outcome.rejected f rest : Outcome α).LiesIn front :=
  ⟨hc, rest, List.suffix_refl rest, h, hp⟩

end LiesIn

end Outcome

namespace Grammar

open Production Tokens

/-- Wherever it begins, a production leaves an end of the tokens, and a fault lies no later. -/
def Points {α : Type} (p : Production α) : Prop :=
  ∀ front s : Tokens, s <:+ front → (p s).LiesIn front

namespace Points

variable {α β : Type}

theorem pure (a : α) : Points (pure a : Production α) := fun _ _ h => h

/-- Two steps from one list of tokens. -/
theorem bind_at {front s : Tokens} {p : Production α} {f : α → Production β}
    (hp : (p s).LiesIn front)
    (hf : ∀ a rest, p s = .accepted a rest → rest <:+ front → (f a rest).LiesIn front) :
    ((p >>= f) s).LiesIn front := by
  rw [bind_apply]
  cases e : p s with
  | accepted a rest =>
    rw [e] at hp
    exact hf a rest e hp
  | rejected fault rest =>
    rw [e] at hp
    exact hp

theorem bind {p : Production α} {f : α → Production β} (hp : Points p) (hf : ∀ a, Points (f a)) :
    Points (p >>= f) := fun front s h =>
  bind_at (hp front s h) fun a rest _ hr => hf a front rest hr

theorem take (p : TokenKind → Bool) (cause : Tokens → Fault.Cause)
    (hc : ∀ s, (cause s).isUnclosed = false) : Points (take p cause) := by
  intro front s h
  cases s with
  | nil => exact .fault h rfl (hc [])
  | cons t rest =>
    rw [take_cons]
    split
    · exact (List.suffix_cons t rest).trans h
    · exact .fault h rfl (hc (t :: rest))

theorem take? (p : TokenKind → Bool) : Points (take? p) := by
  intro front s h
  cases s with
  | nil => exact h
  | cons t rest =>
    rw [take?_cons]
    split
    · exact (List.suffix_cons t rest).trans h
    · exact h

theorem blank : Points blank := fun _ s h => (skipBlank_suffix s).trans h

theorem ahead : Points ahead := fun _ _ h => h

theorem reject (cause : Tokens → Fault.Cause) (hc : ∀ s, (cause s).isUnclosed = false) :
    Points (reject cause : Production α) :=
  fun _ s h => .fault h rfl (hc s)

theorem ite {c : Prop} [Decidable c] {p q : Production α} (hp : Points p) (hq : Points q) :
    Points (if c then p else q) := by
  split
  · exact hp
  · exact hq

/-- What a production that accepts leaves. -/
theorem left {p : Production α} (hp : Points p) {front s rest : Tokens} {a : α} (hs : s <:+ front)
    (h : p s = .accepted a rest) : rest <:+ front := by
  have hl := hp front s hs
  rwa [h] at hl

/-- A production that stops. -/
theorem stop {p : Production α} (hp : Points p) {s rest : Tokens} {f : Fault}
    (h : p s = .rejected f rest) :
    ∃ u : Tokens, rest <:+ u ∧ u <:+ s ∧ f.place = u.place? := by
  have hl := hp s s (List.suffix_refl s)
  rw [h] at hl
  exact hl.2

theorem not_isUnclosed {p : Production α} (hp : Points p) {s rest : Tokens} {f : Fault}
    (h : p s = .rejected f rest) : f.cause.isUnclosed = false := by
  have hl := hp s s (List.suffix_refl s)
  rw [h] at hl
  exact hl.1

end Points

/-! ## Values -/

section

variable {front : Tokens}

theorem liesIn_functionCall (function : Tree) {s : Tokens} (hs : s <:+ front)
    (hv : ∀ r : Tokens, r.length ≤ s.length → r <:+ front → (value true r).LiesIn front) :
    (functionCall function s).LiesIn front := by
  apply Points.bind_at (Points.blank front s hs)
  intro _ r hr hr'
  have hl : r.length ≤ s.length := (suffix_of_accepted Advances.blank hr).length_le
  apply Points.bind_at (Points.take? _ front r hr')
  intro close r₂ hr₂ hr₂'
  have hl₂ : r₂.length ≤ s.length :=
    Nat.le_trans (suffix_of_accepted (Advances.take? _) hr₂).length_le hl
  cases close with
  | some close => exact hr₂'
  | none =>
    apply Points.bind_at (hv r₂ hl₂ hr₂')
    intro arguments r₃ _ hr₃
    exact Points.bind .blank (fun _ => .bind (.take _ _ fun _ => rfl) fun _ => .pure _) front r₃ hr₃

theorem liesIn_term {named : Bool} {s : Tokens} (hs : s <:+ front)
    (ht : ∀ r : Tokens, r.length < s.length → r <:+ front → (term false r).LiesIn front)
    (hv : ∀ r : Tokens, r.length < s.length → r <:+ front → (value true r).LiesIn front) :
    (term named s).LiesIn front := by
  cases s with
  | nil =>
    rw [term_eq]
    exact .fault hs rfl rfl
  | cons t rest =>
    have hrest : rest <:+ front := (List.suffix_cons t rest).trans hs
    rw [term_cons]
    cases hn : argumentName? named t rest with
    | some p =>
      obtain ⟨equals, behind⟩ := p
      have hb := (argumentName?_suffix hn).1
      apply Points.bind_at (ht behind (Nat.lt_succ_of_le hb.length_le) (hb.trans hrest))
      intro _ _ _ hr
      exact hr
    | none =>
      dsimp only
      split
      · exact liesIn_functionCall t.leaf hrest fun r hr => hv r (Nat.lt_succ_of_le hr)
      · split
        · exact hrest
        · exact .fault hs rfl rfl

theorem liesIn_terms {named : Bool} {s : Tokens} (hs : s <:+ front)
    (ht : ∀ r : Tokens, r.length ≤ s.length → r <:+ front → (term named r).LiesIn front)
    (hts : ∀ r : Tokens, r.length < s.length → r <:+ front → (terms named r).LiesIn front) :
    (terms named s).LiesIn front := by
  rw [terms_eq]
  cases h : skipBlank s with
  | nil => exact List.nil_suffix
  | cons t rest =>
    have hs' := suffix_of_skipBlank h
    have hl := hs'.length_le
    rw [List.length_cons] at hl
    have further (r : Tokens) (hr : r.length ≤ s.length) (hr' : r <:+ front)
        (f : Tree → List Tree → List Tree) :
        ((do
          let next ← term named
          let more ← terms named
          return f next more : Production (List Tree)) r).LiesIn front := by
      apply Points.bind_at (ht r hr hr')
      intro x left hx hleft
      have hlt := Nat.lt_of_lt_of_le (term_consumes named r x left hx) hr
      apply Points.bind_at (hts left hlt hleft)
      intro _ _ _ h
      exact h
    dsimp only
    split
    · have hrest : rest <:+ front := (List.suffix_cons t rest).trans (hs'.trans hs)
      apply Points.bind_at (Points.blank front rest hrest)
      intro _ r hr hr'
      have hlr := (suffix_of_accepted Advances.blank hr).length_le
      exact further r (by omega) hr' fun next more => t.leaf :: next :: more
    · split
      · exact further (t :: rest) hs'.length_le (hs'.trans hs) fun next more =>
          blankLeaf s ++ next :: more
      · exact hs'.trans hs

theorem liesIn_value {named : Bool} {s : Tokens} (ht : (term named s).LiesIn front)
    (hts : ∀ r : Tokens, r.length < s.length → r <:+ front → (terms named r).LiesIn front) :
    (value named s).LiesIn front := by
  rw [value_eq]
  apply Points.bind_at ht
  intro x left hx hleft
  apply Points.bind_at (hts left (term_consumes named s x left hx) hleft)
  intro _ _ _ h
  exact h

end

theorem Points.value (named : Bool) : Points (value named) := by
  intro front s hs
  -- the tokens to read are what is left of `front`
  refine (values_induction (P := fun named s => s <:+ front → (term named s).LiesIn front)
    (Q := fun named s => s <:+ front → (terms named s).LiesIn front)
    (R := fun named s => s <:+ front → (Grammar.value named s).LiesIn front) ?_ ?_ ?_ named s).2.2 hs
  · exact fun _ _ ht hv hs => liesIn_term hs ht hv
  · exact fun _ _ ht hts hs => liesIn_terms hs ht hts
  · exact fun _ _ ht hts hs => liesIn_value (ht hs) hts

/-! ## Selectors -/

theorem Points.attributeMatcher : Points attributeMatcher :=
  .bind (.take? _) fun
    | none => .pure _
    | some _ => .bind .blank fun _ => .bind (.take _ _ fun _ => rfl) fun _ =>
      .bind .blank fun _ => .pure _

theorem Points.pseudoArgument (depth : Nat) : Points (pseudoArgument depth) := by
  intro front s hs
  induction s generalizing depth with
  | nil => exact .fault hs rfl rfl
  | cons t rest ih =>
    have hrest : rest <:+ front := (List.suffix_cons t rest).trans hs
    rw [Grammar.pseudoArgument]
    split
    · exact (ih (depth + 1) hrest).map _
    · split
      · split
        · exact hrest
        · exact (ih (depth - 1) hrest).map _
      · exact (ih depth hrest).map _

theorem Points.pseudoName : Points pseudoName := by
  intro front s hs
  cases s with
  | nil => exact .fault hs rfl rfl
  | cons t rest =>
    have hrest : rest <:+ front := (List.suffix_cons t rest).trans hs
    rw [Grammar.pseudoName]
    split
    · exact hrest
    · exact (Points.pseudoArgument 0 front rest hrest).map _
    · exact .fault hs rfl rfl

theorem Points.condition : Points condition := by
  intro front s hs
  unfold Grammar.condition
  split
  · exact Points.bind (.take _ _ fun _ => rfl)
      (fun _ => .bind (.take _ _ fun _ => rfl) fun _ => .pure _) front s hs
  · exact Points.bind (.take _ _ fun _ => rfl) (fun _ => .bind .blank fun _ =>
      .bind (.take _ _ fun _ => rfl) fun _ => .bind .blank fun _ =>
      .bind Points.attributeMatcher fun _ => .bind (.take _ _ fun _ => rfl) fun _ => .pure _)
      front s hs
  · exact Points.bind (.take _ _ fun _ => rfl) (fun _ => .bind (.take? _) fun _ =>
      .bind Points.pseudoName fun _ => .pure _) front s hs
  · exact Points.bind (.take _ _ fun _ => rfl) (fun _ => .pure _) front s hs

theorem Points.conditions : Points conditions := by
  intro front s hs
  fun_induction Grammar.conditions s with
  | case1 s _ e rest h =>
    have hc := Points.condition front s hs
    rwa [h] at hc
  | case2 s _ c rest h _ ih => exact (ih (Points.condition.left hs h)).map _
  | case3 s => exact hs

theorem Points.namespacePrefix? : Points namespacePrefix? := by
  intro front s hs
  have ha := (namespacePrefix?_advances s).trans hs
  cases e : Grammar.namespacePrefix? s with
  | accepted p rest =>
    rw [e] at ha
    exact ha
  | rejected f rest =>
    -- a compound may do without a prefix
    unfold Grammar.namespacePrefix? at e
    split at e
    · split at e
      · contradiction
      · split at e <;> contradiction
    · split at e <;> contradiction
    · contradiction

theorem Points.elementName? (hasPrefix : Bool) : Points (elementName? hasPrefix) :=
  .bind (.take? _) fun
    | some _ => .pure _
    | none => .ite (.reject _ fun _ => rfl) (.pure _)

theorem Points.compound : Points compound :=
  .bind Points.namespacePrefix? fun _ => .bind (Points.elementName? _) fun _ =>
    .bind Points.conditions fun _ => by
      split
      · exact .reject _ fun _ => rfl
      · exact .pure _

theorem Points.combinator? : Points combinator? := by
  intro front s hs
  have h := (skipBlank_suffix s).trans hs
  unfold Grammar.combinator?
  split
  · exact List.nil_suffix
  · rename_i t rest e
    rw [e] at h
    split
    · exact (skipBlank_suffix rest).trans ((List.suffix_cons t rest).trans h)
    · split
      · split
        · split
          · exact h
          · exact .fault hs rfl rfl
        · exact List.nil_suffix
      · exact h

theorem Points.selectorTail : Points selectorTail := by
  intro front s hs
  fun_induction Grammar.selectorTail s with
  | case1 s e rest h =>
    have hc := Points.combinator? front s hs
    rwa [h] at hc
  | case2 s rest h => exact Points.combinator?.left hs h
  | case3 s c between h e rest h' =>
    have hc := Points.compound front between (Points.combinator?.left hs h)
    rwa [h'] at hc
  | case4 s c between h part rest h' _ ih =>
    exact (ih (Points.compound.left (Points.combinator?.left hs h) h')).map _

theorem Points.selector : Points selector :=
  .bind Points.compound fun _ => .bind Points.selectorTail fun _ => .pure _

theorem Points.selectorListTail : Points selectorListTail := by
  intro front s hs
  fun_induction Grammar.selectorListTail s with
  | case1 => exact hs
  | case2 comma rest _ e left h =>
    have hc := Points.selector front _ ((skipBlank_suffix rest).trans ((List.suffix_cons comma rest).trans hs))
    rwa [h] at hc
  | case3 comma rest _ next left h _ ih =>
    have hr := (skipBlank_suffix rest).trans ((List.suffix_cons comma rest).trans hs)
    exact (ih (Points.selector.left hr h)).map _
  | case4 => exact hs

theorem Points.rulePrelude : Points rulePrelude :=
  .bind (.bind Points.selector fun _ => .bind Points.selectorListTail fun _ => .pure _)
    fun _ => .bind (.take _ _ fun _ => rfl) fun _ => .pure _

/-! ## Media queries -/

theorem Points.mediaFeature : Points mediaFeature :=
  .bind (.take _ _ fun _ => rfl) fun _ => .bind .blank fun _ =>
    .bind (.take _ _ fun _ => rfl) fun _ => .bind .blank fun _ =>
    .bind (.bind (.take? _) fun
      | none => .pure _
      | some _ => .bind .blank fun _ => .bind (Points.value false) fun _ =>
        .bind .blank fun _ => .pure _) fun _ =>
    .bind (.take _ _ fun _ => rfl) fun _ => .pure _

theorem Points.mediaQueryHead : Points mediaQueryHead :=
  .bind .blank fun _ => .bind .ahead fun _ =>
    .ite (.bind (.take _ _ fun _ => rfl) fun _ => .bind .blank fun _ =>
        .bind (.take _ _ fun _ => rfl) fun _ => .pure _)
      (.ite (.bind (.take _ _ fun _ => rfl) fun _ => .pure _)
        (.bind Points.mediaFeature fun _ => .pure _))

theorem Points.furtherFeature : Points furtherFeature :=
  .bind (.take _ _ fun _ => rfl) fun _ => .bind .blank fun _ =>
    .bind Points.mediaFeature fun _ => .pure _

theorem Points.furtherFeatures : Points furtherFeatures := by
  intro front s hs
  fun_induction Grammar.furtherFeatures s with
  | case1 s _ e rest h =>
    have hc := Points.furtherFeature front _ ((skipBlank_suffix s).trans hs)
    rwa [h] at hc
  | case2 s _ feature rest h _ ih =>
    exact (ih (Points.furtherFeature.left ((skipBlank_suffix s).trans hs) h)).map _
  | case3 s => exact (skipBlank_suffix s).trans hs

theorem Points.mediaQuery : Points mediaQuery :=
  .bind .ahead fun _ => .bind Points.mediaQueryHead fun _ =>
    .bind Points.furtherFeatures fun _ => .pure _

theorem Points.furtherQueries : Points furtherQueries := by
  intro front s hs
  fun_induction Grammar.furtherQueries s with
  | case1 => exact hs
  | case2 comma rest _ e left h =>
    have hc := Points.mediaQuery front rest ((List.suffix_cons comma rest).trans hs)
    rwa [h] at hc
  | case3 comma rest _ next left h _ ih =>
    exact (ih (Points.mediaQuery.left ((List.suffix_cons comma rest).trans hs) h)).map _
  | case4 => exact hs

theorem Points.mediaPrelude : Points mediaPrelude :=
  .bind .ahead fun _ => .bind
    (.bind .ahead fun _ => .ite (.pure _)
      (.bind Points.mediaQuery fun _ => .bind Points.furtherQueries fun _ => .pure _))
    fun _ => .bind (.take _ _ fun _ => rfl) fun _ => .pure _

/-! ## Declarations and at-rules -/

theorem Points.declarationEnd : Points declarationEnd :=
  .bind (.take? _) fun
    | some _ => .pure _
    | none => .bind .ahead fun _ => .ite (.pure _) (.reject _ fun _ => rfl)

/-- The value of a declaration that begins at `s`: if none is to come, the fault lies at the name. -/
theorem liesIn_valueAhead {front s r : Tokens} (hs : s <:+ front) (hr : r <:+ s) :
    (valueAhead s.head? r).LiesIn front := by
  unfold valueAhead
  split
  · exact ⟨rfl, s, hr, hs, rfl⟩
  · exact hr.trans hs

theorem Points.declaration : Points declaration := by
  intro front s hs
  -- the name is where the declaration begins, in front of what its value is looked for in
  apply bind_at (Points.ahead front s hs)
  rintro _ _ ⟨⟩ -
  apply bind_at (Points.take _ _ (fun _ => rfl) front s hs)
  intro name r₁ e₁ h₁
  apply bind_at (Points.blank front r₁ h₁)
  intro _ r₂ e₂ h₂
  apply bind_at (Points.take _ _ (fun _ => rfl) front r₂ h₂)
  intro colon r₃ e₃ h₃
  apply bind_at (Points.blank front r₃ h₃)
  intro _ r₄ e₄ h₄
  have h₂₁ : r₂ <:+ s :=
    (suffix_of_accepted Advances.blank e₂).trans (suffix_of_accepted (Advances.take _ _) e₁)
  have h₄₂ : r₄ <:+ r₂ :=
    (suffix_of_accepted Advances.blank e₄).trans (suffix_of_accepted (Advances.take _ _) e₃)
  apply bind_at (liesIn_valueAhead hs (h₄₂.trans h₂₁))
  intro _ r₅ _ h₅
  exact Points.bind (Points.value false) (fun _ => .bind .blank fun _ => .bind (.take? _) fun _ =>
    .bind .blank fun _ => .bind Points.declarationEnd fun _ => .pure _) front r₅ h₅

theorem Points.namespaceContent : Points namespaceContent :=
  .bind .blank fun _ => .bind (.take? _) fun _ => .bind .blank fun _ => .bind .ahead fun _ =>
    .bind (.take _ _ fun _ => rfl) fun _ => .bind .blank fun _ => .bind (.take? _) fun _ => .pure _

theorem Points.fontFaceBrace : Points fontFaceBrace := .bind .blank fun _ => .take _ _ fun _ => rfl

/-- A missing semicolon is found right behind the address. -/
theorem namespaceContent_semicolon {s left : Tokens} {trees : List Tree} {f : Fault}
    (h : namespaceContent s = .accepted (trees, some f) left) :
    ∃ t rest, t :: rest <:+ s ∧ left <:+ rest ∧ f.place = some (.point t.token.span.stop) := by
  simp only [namespaceContent, bind_apply, blank_apply, ahead_apply] at h
  split at h
  · rename_i nsPrefix r hp
    have hr : skipBlank r <:+ s :=
      (skipBlank_suffix r).trans
        ((suffix_of_accepted (Advances.take? _) hp).trans (skipBlank_suffix s))
    cases e : skipBlank r with
    | nil =>
      rw [e] at h
      contradiction
    | cons t rest =>
      rw [e] at h hr
      by_cases ha : isAddress t.kind = true
      · simp only [take_cons, ha, ↓reduceIte] at h
        split at h
        · rename_i semicolon left' hs
          have hl : left' <:+ rest :=
            (suffix_of_accepted (Advances.take? _) hs).trans (skipBlank_suffix rest)
          simp only [pure_apply, Outcome.accepted.injEq, Prod.mk.injEq] at h
          obtain ⟨⟨-, hf⟩, rfl⟩ := h
          split at hf
          · cases hf
            exact ⟨t, rest, hr, hl, rfl⟩
          · contradiction
        · contradiction
      · simp only [take_cons, ha, Bool.false_eq_true, ↓reduceIte] at h
        contradiction
  · contradiction

end Grammar

end Stylesheet
