import Stylesheet.Grammar.Production

/-!
# Skipping what does not fit

Where a production stops, the tokens up to a safe place are skipped and kept as leaves. A broken
declaration ends with its semicolon or in front of the brace that closes the block; a broken rule
ends with the brace that closes it, or with the one that closes the block around it; an at-rule ends
with its semicolon or its block, and never takes the brace of the block around it.
-/

namespace Stylesheet.Grammar

/-- The leaves of skipped tokens, and what is left. -/
structure Skipped where
  leaves : List Tree
  rest : Tokens

namespace Skipped

def cons (t : Placed) (s : Skipped) : Skipped := { s with leaves := t.leaf :: s.leaves }

@[simp] theorem rest_cons (t : Placed) (s : Skipped) : (s.cons t).rest = s.rest := rfl

end Skipped

/-- Past the next semicolon, or up to the next closing brace, outside brackets. Inside them, any
    closing bracket closes the innermost one. -/
def skipDeclaration (depth : Nat) : Tokens → Skipped
  | [] => ⟨[], []⟩
  | t :: rest =>
    -- the brace ends the block, not the declaration
    if depth = 0 ∧ t.kind = .closing .brace then ⟨[], t :: rest⟩
    else if depth = 0 ∧ t.kind = .semicolon then ⟨[t.leaf], rest⟩
    else if t.kind.opens?.isSome then (skipDeclaration (depth + 1) rest).cons t
    else if t.kind.isClosing then (skipDeclaration (depth - 1) rest).cons t
    else (skipDeclaration depth rest).cons t

/-- Past the brace that closes the rule. If no brace was opened before it, that brace closes the block
    around the rule, which `closesOuter` tells. -/
def skipRule (depth : Nat) : Tokens → Skipped
  | [] => ⟨[], []⟩
  | t :: rest =>
    if t.kind = .opening .brace then (skipRule (depth + 1) rest).cons t
    else if t.kind = .closing .brace then
      if depth ≤ 1 then ⟨[t.leaf], rest⟩ else (skipRule (depth - 1) rest).cons t
    else (skipRule depth rest).cons t

/-- Whether the first brace is a closing one. -/
def closesOuter : Tokens → Bool
  | [] => false
  | t :: rest =>
    if t.kind = .opening .brace then false
    else if t.kind = .closing .brace then true
    else closesOuter rest

/-- Past the semicolon or the block that ends an at-rule. -/
def skipStatement (depth : Nat) : Tokens → Skipped
  | [] => ⟨[], []⟩
  | t :: rest =>
    if depth = 0 ∧ t.kind = .closing .brace then ⟨[], t :: rest⟩
    else if depth = 0 ∧ t.kind = .semicolon then ⟨[t.leaf], rest⟩
    else if t.kind = .opening .brace then (skipStatement (depth + 1) rest).cons t
    else if t.kind = .closing .brace then
      if depth ≤ 1 then ⟨[t.leaf], rest⟩ else (skipStatement (depth - 1) rest).cons t
    else (skipStatement depth rest).cons t

theorem skipDeclaration_suffix : ∀ (s : Tokens) (depth : Nat), (skipDeclaration depth s).rest <:+ s
  | [], _ => List.suffix_refl _
  | t :: rest, depth => by
    have step (d : Nat) : (skipDeclaration d rest).rest <:+ t :: rest :=
      (skipDeclaration_suffix rest d).trans (List.suffix_cons t rest)
    rw [skipDeclaration]
    split
    · exact List.suffix_refl _
    · split
      · exact List.suffix_cons t rest
      · split
        · exact step _
        · split
          · exact step _
          · exact step _

theorem skipRule_suffix : ∀ (s : Tokens) (depth : Nat), (skipRule depth s).rest <:+ s
  | [], _ => List.suffix_refl _
  | t :: rest, depth => by
    have step (d : Nat) : (skipRule d rest).rest <:+ t :: rest :=
      (skipRule_suffix rest d).trans (List.suffix_cons t rest)
    rw [skipRule]
    split
    · exact step _
    · split
      · split
        · exact List.suffix_cons t rest
        · exact step _
      · exact step _

theorem skipStatement_suffix : ∀ (s : Tokens) (depth : Nat), (skipStatement depth s).rest <:+ s
  | [], _ => List.suffix_refl _
  | t :: rest, depth => by
    have step (d : Nat) : (skipStatement d rest).rest <:+ t :: rest :=
      (skipStatement_suffix rest d).trans (List.suffix_cons t rest)
    rw [skipStatement]
    split
    · exact List.suffix_refl _
    · split
      · exact List.suffix_cons t rest
      · split
        · exact step _
        · split
          · split
            · exact List.suffix_cons t rest
            · exact step _
          · exact step _

/-- A broken declaration that does not begin at a closing brace loses a token. -/
theorem skipDeclaration_suffix_tail {t : Placed} {rest : Tokens} {depth : Nat}
    (h : t.kind ≠ .closing .brace) : (skipDeclaration depth (t :: rest)).rest <:+ rest := by
  rw [skipDeclaration, if_neg fun e => h e.2]
  split
  · exact List.suffix_refl _
  · split
    · exact skipDeclaration_suffix rest _
    · split
      · exact skipDeclaration_suffix rest _
      · exact skipDeclaration_suffix rest _

/-- A broken rule loses a token. -/
theorem skipRule_suffix_tail (t : Placed) (rest : Tokens) (depth : Nat) :
    (skipRule depth (t :: rest)).rest <:+ rest := by
  rw [skipRule]
  split
  · exact skipRule_suffix rest _
  · split
    · split
      · exact List.suffix_refl _
      · exact skipRule_suffix rest _
    · exact skipRule_suffix rest _

end Stylesheet.Grammar
