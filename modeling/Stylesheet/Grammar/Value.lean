import Stylesheet.Grammar.Production

/-!
# Values

    value         term ((',' | '/')? term)*
    term          literal | function call | named argument
    function call FUNCTION value? ')'
    named arg     IDENT '=' term

Blanks may stand between any two of these; one that alone separates two terms is kept as a leaf. A
named argument may stand only inside a function call, and not inside another.

The three productions call each other, so each is first read together with a bound on what it leaves
(`Outcome.Within`); `term`, `terms` and `value` are the productions, `term_eq`, `terms_eq` and
`value_eq` say what they do.
-/

namespace Stylesheet

/-- Accepted with fewer than `n` tokens left, or rejected with at most `n`. -/
def Outcome.Within {α : Type} (n : Nat) : Outcome α → Prop
  | .accepted _ rest => rest.length < n
  | .rejected _ rest => rest.length ≤ n

namespace Grammar

open Tokens Production

/-- The tokens that a term may begin with. -/
def startsTerm : TokenKind → Bool
  | .number _ | .percentage _ | .dimension .. | .string _ | .ident _ | .hash .. | .url _
  | .function _ => true
  | _ => false

/-- The separators that are written out. -/
def isSeparator (k : TokenKind) : Bool := k == .comma || k == .slash

def isClosingParen (k : TokenKind) : Bool := k == .closing .paren

/-- The blank that separates two terms, if one stands there. -/
def blankLeaf (s : Tokens) : List Tree :=
  match s with
  | t :: _ => if Tokens.isBlank t then [t.leaf] else []
  | [] => []

/-- An equals sign at the front, blanks aside, and what follows it and its blanks. -/
def equalsSign? (s : Tokens) : Option (Tree × Tokens) :=
  match skipBlank s with
  | t :: rest => if t.kind = .comparison .equals then some (t.leaf, (skipBlank rest)) else none
  | [] => none

theorem skipBlank_length_le (s : Tokens) : (skipBlank s).length ≤ s.length :=
  (Tokens.skipBlank_suffix s).length_le

theorem equalsSign?_length {s rest : Tokens} {e : Tree} (h : equalsSign? s = some (e, rest)) :
    rest.length < s.length := by
  have h₁ := skipBlank_length_le s
  unfold equalsSign? at h
  split at h
  · rename_i t behind e'
    rw [e'] at h₁
    split at h
    · cases h
      have := skipBlank_length_le behind
      simp at h₁
      omega
    · contradiction
  · contradiction

mutual

/-- `term` with its bound. -/
def boundedTerm (named : Bool) (s : Tokens) : { o : Outcome Tree // o.Within s.length } :=
  match s with
  | [] => ⟨.rejected (Tokens.unexpected [] "value") [], Nat.le_refl _⟩
  | t :: rest =>
    have hr := skipBlank_length_le rest
    match h : if named && t.kind.isIdent then equalsSign? rest else none with
    | some (equals, behind) =>
      have hb : behind.length < rest.length := by
        split at h
        · exact equalsSign?_length h
        · contradiction
      match boundedTerm false behind with
      | ⟨.rejected e left, hl⟩ =>
        ⟨.rejected e left, by simp only [Outcome.Within, List.length_cons] at hl ⊢; omega⟩
      | ⟨.accepted value left, hl⟩ =>
        ⟨.accepted (.node .namedArgument t.index [t.leaf, equals, value]) left, by
          simp only [Outcome.Within, List.length_cons] at hl ⊢; omega⟩
    | none =>
      match t.kind with
      | .function _ =>
        if startsWith (skipBlank rest) isClosingParen then
          ⟨.accepted (.node .functionCall t.index (t.leaf :: ((skipBlank rest).take 1).map Placed.leaf))
              (skipBlank rest).tail, by
            simp only [Outcome.Within, List.length_cons, List.length_tail]; omega⟩
        else
          match boundedValue true (skipBlank rest) with
          | ⟨.rejected e left, hl⟩ =>
            ⟨.rejected e left, by simp only [Outcome.Within, List.length_cons] at hl ⊢; omega⟩
          | ⟨.accepted value left, hl⟩ =>
            have hk := skipBlank_length_le left
            match h' : skipBlank left with
            | [] => ⟨.rejected (Tokens.unexpected [] "')'") [], Nat.zero_le _⟩
            | close :: behind =>
              have hc : behind.length + 1 < rest.length := by
                rw [h'] at hk
                simp only [Outcome.Within, List.length_cons] at hl hk
                omega
              if isClosingParen close.kind then
                ⟨.accepted (.node .functionCall t.index [t.leaf, value, close.leaf]) behind, by
                  simp only [Outcome.Within, List.length_cons]; omega⟩
              else
                ⟨.rejected (Tokens.unexpected (close :: behind) "')'") (close :: behind), by
                  simp only [Outcome.Within, List.length_cons]; omega⟩
      | kind =>
        if startsTerm kind then
          ⟨.accepted (.node .term t.index [t.leaf]) rest, by simp [Outcome.Within]⟩
        else ⟨.rejected (Tokens.unexpected (t :: rest) "value") (t :: rest), Nat.le_refl _⟩
termination_by 3 * s.length

/-- `terms` with its bound. -/
def boundedTerms (named : Bool) (s : Tokens) :
    { o : Outcome (List Tree) // o.Within (s.length + 1) } :=
  have hs := skipBlank_length_le s
  match h : skipBlank s with
  | [] => ⟨.accepted [] [], Nat.succ_pos _⟩
  | t :: rest =>
    have hr := skipBlank_length_le rest
    have ht : rest.length < s.length := by
      rw [h] at hs
      exact hs
    if isSeparator t.kind then
      match boundedTerm named (skipBlank rest) with
      | ⟨.rejected e left, hl⟩ =>
        ⟨.rejected e left, by simp only [Outcome.Within] at *; omega⟩
      | ⟨.accepted term left, hl⟩ =>
        have hl' : left.length < s.length := by simp only [Outcome.Within] at hl; omega
        match boundedTerms named left with
        | ⟨.rejected e left', hm⟩ =>
          ⟨.rejected e left', by simp only [Outcome.Within] at *; omega⟩
        | ⟨.accepted more left', hm⟩ =>
          ⟨.accepted (t.leaf :: term :: more) left', by simp only [Outcome.Within] at *; omega⟩
    else if startsTerm t.kind then
      match boundedTerm named (t :: rest) with
      | ⟨.rejected e left, hl⟩ =>
        ⟨.rejected e left, by simp only [Outcome.Within, List.length_cons] at *; omega⟩
      | ⟨.accepted term left, hl⟩ =>
        have hl' : left.length < s.length := by
          simp only [Outcome.Within, List.length_cons] at hl
          omega
        match boundedTerms named left with
        | ⟨.rejected e left', hm⟩ =>
          ⟨.rejected e left', by simp only [Outcome.Within] at *; omega⟩
        | ⟨.accepted more left', hm⟩ =>
          ⟨.accepted (blankLeaf s ++ term :: more) left', by
            simp only [Outcome.Within] at *; omega⟩
    else ⟨.accepted [] (t :: rest), by simp only [Outcome.Within, List.length_cons]; omega⟩
termination_by 3 * s.length + 1

/-- `value` with its bound. -/
def boundedValue (named : Bool) (s : Tokens) : { o : Outcome Tree // o.Within s.length } :=
  match boundedTerm named s with
  | ⟨.rejected e left, hl⟩ => ⟨.rejected e left, hl⟩
  | ⟨.accepted term left, hl⟩ =>
    have hl' : left.length < s.length := hl
    match boundedTerms named left with
    | ⟨.rejected e left', hm⟩ =>
      ⟨.rejected e left', by simp only [Outcome.Within] at *; omega⟩
    | ⟨.accepted more left', hm⟩ =>
      ⟨.accepted (.node .value term.first (term :: more)) left', by
        simp only [Outcome.Within] at *; omega⟩
termination_by 3 * s.length + 2

end

/-- One term. -/
def term (named : Bool) : Production Tree := fun s => boundedTerm named s

/-- What follows a term in a value: separators and further terms. -/
def terms (named : Bool) : Production (List Tree) := fun s => boundedTerms named s

/-- Terms, with what separates them. -/
def value (named : Bool) : Production Tree := fun s => boundedValue named s

/-- The value of a named argument, behind its equals sign. -/
def namedArgument (name equals : Tree) : Production Tree := do
  let value ← term false
  return .node .namedArgument name.first [name, equals, value]

/-- The arguments of a function, behind its opening parenthesis. -/
def functionCall (function : Tree) : Production Tree := do
  blank
  match ← take? isClosingParen with
  | some close => return .node .functionCall function.first [function, close]
  | none =>
    let arguments ← value true
    blank
    let close ← take isClosingParen fun s => .unexpectedToken "')'" s.found
    return .node .functionCall function.first [function, arguments, close]

/-- The arguments of a call, with the bracket behind them. -/
def argumentsOf (function : Tree) : Production Tree := do
  let arguments ← value true
  blank
  let close ← take isClosingParen fun s => .unexpectedToken "')'" s.found
  return .node .functionCall function.first [function, arguments, close]

/-- A call behind its opening bracket and the blanks there: without arguments, or with them. -/
def callOf (function : Tree) : Production Tree := do
  match ← take? isClosingParen with
  | some close => return .node .functionCall function.first [function, close]
  | none => argumentsOf function

theorem functionCall_eq (function : Tree) :
    functionCall function = (do blank; callOf function) := by
  rw [functionCall]
  rfl

theorem callOf_cons (function : Tree) (t : Placed) (rest : Tokens) :
    callOf function (t :: rest) =
      if isClosingParen t.kind then .accepted (.node .functionCall function.first [function, t.leaf]) rest
      else argumentsOf function (t :: rest) := by
  rw [callOf, bind_apply, take?_cons]
  by_cases ht : isClosingParen t.kind = true
  · rw [if_pos ht, if_pos ht]
    rfl
  · rw [if_neg ht, if_neg ht]

theorem callOf_eq_argumentsOf (function : Tree) {s : Tokens}
    (h : ¬ startsWith s isClosingParen = true) : callOf function s = argumentsOf function s := by
  cases s with
  | nil => rfl
  | cons t rest =>
    rw [callOf_cons]
    exact if_neg h

/-- A named argument where one may stand, a function call, or a single token. -/
theorem term_eq (named : Bool) (s : Tokens) :
    term named s =
      match s with
      | [] => .rejected (Tokens.unexpected [] "value") []
      | t :: rest =>
        match if named && t.kind.isIdent then equalsSign? rest else none with
        | some (equals, behind) => namedArgument t.leaf equals behind
        | none =>
          match t.kind with
          | .function _ => functionCall t.leaf rest
          | kind =>
            if startsTerm kind then .accepted (.node .term t.index [t.leaf]) rest
            else .rejected (Tokens.unexpected (t :: rest) "value") (t :: rest) := by
  match s with
  | [] =>
    simp only [term]
    rw [boundedTerm]
  | t :: rest =>
    simp only [term]
    rw [boundedTerm]
    dsimp only
    split
    · rename_i equals behind h
      simp only [namedArgument, term, bind_apply, pure_apply, h]
      split
      · rename_i h'
        simp only [h']
      · rename_i h'
        simp only [h']
        rfl
    · rename_i h
      simp only [h]
      split
      · simp only [functionCall_eq, bind_apply, blank_apply]
        by_cases hc : startsWith (skipBlank rest) isClosingParen = true
        · obtain ⟨close, behind, hs, hk⟩ := exists_of_startsWith hc
          simp [startsWith, callOf_cons, hs, hk, Tree.first, Placed.leaf]
        · rw [callOf_eq_argumentsOf t.leaf hc]
          simp only [hc, Bool.false_eq_true, ↓reduceIte, argumentsOf, bind_apply, blank_apply, value]
          split
          · rename_i h'
            simp only [h']
          · rename_i arguments left _ h'
            simp only [h']
            split
            · rename_i h''
              simp [h'', take, Tokens.unexpected, Tokens.fault, Tokens.found]
            · rename_i close behind h''
              simp only [h'', take]
              split <;> simp_all [Tokens.unexpected, Tree.first, Placed.leaf]
      · split <;> simp_all

/-- A separator and a term, or a term alone, as long as they go on. -/
theorem terms_eq (named : Bool) (s : Tokens) :
    terms named s =
      match skipBlank s with
      | [] => .accepted [] []
      | t :: rest =>
        if isSeparator t.kind then
          (do
            blank
            let next ← term named
            let more ← terms named
            return t.leaf :: next :: more : Production (List Tree)) rest
        else if startsTerm t.kind then
          (do
            let next ← term named
            let more ← terms named
            return blankLeaf s ++ next :: more : Production (List Tree)) (t :: rest)
        else .accepted [] (t :: rest) := by
  simp only [terms]
  rw [boundedTerms]
  split
  · rename_i h
    simp only [h]
  · rename_i t rest h
    simp only [h, term, terms, Production.bind_apply, Production.blank_apply,
      Production.pure_apply]
    split
    · split
      · rename_i h'
        simp only [h']
      · rename_i h'
        simp only [h']
        split <;> rename_i h'' <;> simp only [h'']
    · split
      · split
        · rename_i h'
          simp only [h']
        · rename_i h'
          simp only [h']
          split <;> rename_i h'' <;> simp only [h'']
      · rfl

/-- A term and what follows it. -/
theorem value_eq (named : Bool) (s : Tokens) :
    value named s = (do
      let first ← term named
      let more ← terms named
      return Tree.node .value first.first (first :: more) : Production Tree) s := by
  simp only [value, term, terms, Production.bind_apply, Production.pure_apply]
  rw [boundedValue]
  split
  · rename_i h
    simp only [h]
  · rename_i h
    simp only [h]
    split
    · rename_i h'
      simp only [h']
    · rename_i h'
      simp only [h']

theorem equalsSign?_suffix {s rest : Tokens} {e : Tree} (h : equalsSign? s = some (e, rest)) :
    rest <:+ s := by
  have h₁ := skipBlank_suffix s
  unfold equalsSign? at h
  split at h
  · rename_i t behind e'
    rw [e'] at h₁
    split at h
    · cases h
      exact (skipBlank_suffix behind).trans ((List.suffix_cons t behind).trans h₁)
    · contradiction
  · contradiction

theorem term_consumes (named : Bool) : Consumes (term named) := by
  intro s t rest h
  have hb := (boundedTerm named s).2
  rw [show (boundedTerm named s).1 = .accepted t rest from h] at hb
  exact hb

/-- A value advances where its terms do. -/
theorem value_suffix {named : Bool} {s : Tokens} (ht : (term named s).rest <:+ s)
    (hts : ∀ r : Tokens, r.length < s.length → (terms named r).rest <:+ r) :
    (value named s).rest <:+ s := by
  rw [value_eq]
  apply Advances.bind_at ht
  intro first rest h
  have hl := term_consumes named s first rest h
  exact Advances.bind_at (hts rest hl) fun _ _ _ => List.suffix_refl _

/-- A function call advances where its arguments do. -/
theorem functionCall_suffix (function : Tree) {s : Tokens}
    (hv : ∀ r : Tokens, r.length ≤ s.length → (value true r).rest <:+ r) :
    (functionCall function s).rest <:+ s := by
  apply Advances.bind_at (Advances.blank s)
  intro _ r hr
  have hr' : r = skipBlank s := by cases hr; rfl
  apply Advances.bind_at (Advances.take? _ r)
  intro close r' hc
  cases close with
  | some close => exact List.suffix_refl _
  | none =>
    have hl : r'.length ≤ s.length := by
      have h₁ := (Advances.take? isClosingParen).length_le r
      rw [hc, hr'] at h₁
      exact Nat.le_trans h₁ (skipBlank_length_le s)
    apply Advances.bind_at (hv r' hl)
    intro arguments r'' _
    exact Advances.bind Advances.blank
      (fun _ => Advances.bind (Advances.take _ _) fun _ => Advances.pure _) r''

/-- A term advances where the terms and values of shorter lists do. -/
theorem term_suffix {named : Bool} {s : Tokens}
    (ht : ∀ r : Tokens, r.length < s.length → (term false r).rest <:+ r)
    (hv : ∀ r : Tokens, r.length < s.length → (value true r).rest <:+ r) :
    (term named s).rest <:+ s := by
  rw [term_eq]
  match s, ht, hv with
  | [], _, _ => exact List.suffix_refl _
  | t :: rest, ht, hv =>
    dsimp only
    split
    · rename_i equals behind h
      have hb : behind <:+ rest ∧ behind.length < rest.length := by
        split at h
        · exact ⟨equalsSign?_suffix h, equalsSign?_length h⟩
        · contradiction
      have step : (namedArgument t.leaf equals behind).rest <:+ behind :=
        Advances.bind_at (ht behind (Nat.lt_succ_of_lt hb.2)) fun _ _ _ => List.suffix_refl _
      exact step.trans (hb.1.trans (List.suffix_cons t rest))
    · split
      · have step := functionCall_suffix t.leaf fun r hr => hv r (Nat.lt_succ_of_le hr)
        exact step.trans (List.suffix_cons t rest)
      · split
        · exact List.suffix_cons t rest
        · exact List.suffix_refl _

/-- What follows a term advances where terms do, and where what follows does for shorter lists. -/
theorem terms_suffix {named : Bool} {s : Tokens}
    (ht : ∀ r : Tokens, r.length ≤ s.length → (term named r).rest <:+ r)
    (hts : ∀ r : Tokens, r.length < s.length → (terms named r).rest <:+ r) :
    (terms named s).rest <:+ s := by
  have hk := skipBlank_suffix s
  rw [terms_eq]
  split
  · exact List.nil_suffix
  · rename_i t rest h
    rw [h] at hk
    have hl := hk.length_le
    rw [List.length_cons] at hl
    split
    · have step : ((do
          blank
          let next ← term named
          let more ← terms named
          return t.leaf :: next :: more : Production (List Tree)) rest).rest <:+ rest := by
        apply Advances.bind_at (Advances.blank rest)
        intro _ r hr
        have hr' : r.length ≤ rest.length := by
          cases hr
          exact skipBlank_length_le rest
        apply Advances.bind_at (ht r (by omega))
        intro next r' h'
        have hc := term_consumes named r next r' h'
        exact Advances.bind_at (hts r' (by omega)) fun _ _ _ => List.suffix_refl _
      exact step.trans ((List.suffix_cons t rest).trans hk)
    · split
      · have step : ((do
            let next ← term named
            let more ← terms named
            return blankLeaf s ++ next :: more : Production (List Tree)) (t :: rest)).rest <:+
              t :: rest := by
          apply Advances.bind_at (ht (t :: rest) hk.length_le)
          intro next r' h'
          have hc := term_consumes named (t :: rest) next r' h'
          rw [List.length_cons] at hc
          exact Advances.bind_at (hts r' (by omega)) fun _ _ _ => List.suffix_refl _
        exact step.trans hk
      · exact hk

/-- The three productions, by the number of tokens there are to read: a term reads terms and values of
    shorter lists, and what follows a term is read behind a term, so with less to read. -/
theorem values_induction {P Q R : Bool → Tokens → Prop}
    (hterm : ∀ named s, (∀ r : Tokens, r.length < s.length → P false r) →
      (∀ r : Tokens, r.length < s.length → R true r) → P named s)
    (hterms : ∀ named s, (∀ r : Tokens, r.length ≤ s.length → P named r) →
      (∀ r : Tokens, r.length < s.length → Q named r) → Q named s)
    (hvalue : ∀ named s, P named s → (∀ r : Tokens, r.length < s.length → Q named r) → R named s)
    (named : Bool) (s : Tokens) : P named s ∧ Q named s ∧ R named s := by
  generalize hn : s.length = n
  induction n using Nat.strongRecOn generalizing named s with
  | _ n ih =>
    subst hn
    have one (r : Tokens) (hr : r.length ≤ s.length) : P named r :=
      hterm named r (fun q hq => (ih q.length (by omega) false q rfl).1)
        fun q hq => (ih q.length (by omega) true q rfl).2.2
    have more (r : Tokens) (hr : r.length < s.length) : Q named r :=
      (ih r.length hr named r rfl).2.1
    have first : P named s := one s (Nat.le_refl _)
    exact ⟨first, hterms named s one more, hvalue named s first more⟩

theorem values_advance (named : Bool) (s : Tokens) :
    (term named s).rest <:+ s ∧ (terms named s).rest <:+ s ∧ (value named s).rest <:+ s :=
  values_induction (P := fun named s => (term named s).rest <:+ s)
    (Q := fun named s => (terms named s).rest <:+ s) (R := fun named s => (value named s).rest <:+ s)
    (fun _ _ => term_suffix) (fun _ _ => terms_suffix) (fun _ _ => value_suffix) named s

theorem term_advances (named : Bool) : Advances (term named) := fun s => (values_advance named s).1

theorem value_advances (named : Bool) : Advances (value named) := fun s => (values_advance named s).2.2

end Grammar

end Stylesheet
