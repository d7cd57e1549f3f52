import Stylesheet.Grammar.Fault
import Stylesheet.Tree

/-!
# Productions

A production reads tokens from the front of a list. It accepts some of them and gives a result, or it
stops at a token that does not fit and gives a fault; in both cases it tells which tokens are left,
and these are always an end of the list (`Production.Advances`). The `eof` token is not in the list:
where the list is empty, the input is at its end.
-/

namespace Stylesheet

/-- A token and its number in the list it comes from. -/
structure Placed where
  index : Nat
  token : Token
deriving DecidableEq, Inhabited

namespace Placed

def kind (t : Placed) : TokenKind := t.token.kind

def leaf (t : Placed) : Tree := .leaf t.index

end Placed

/-- What is left to read. -/
abbrev Tokens := List Placed

namespace Tokens

def isBlank (t : Placed) : Bool := t.token.isWhitespace

/-- The tokens behind the whitespace at the front. -/
def skipBlank (s : Tokens) : Tokens := s.dropWhile isBlank

/-- The kind of the next token. -/
def kind? (s : Tokens) : Option TokenKind := s.head?.map Placed.kind

/-- Whether the next token is of a kind. -/
def startsWith (s : Tokens) (p : TokenKind → Bool) : Bool :=
  match s with
  | [] => false
  | t :: _ => p t.kind

/-- The next token, described for a message. -/
def found (s : Tokens) : String :=
  match s with
  | [] => TokenKind.eof.describe
  | t :: _ => t.token.describe

/-- A fault at the next token. -/
def fault (s : Tokens) (cause : Fault.Cause) : Fault := ⟨cause, s.head?.map (·.token.span)⟩

/-- The next token is not what the grammar asks for. -/
def unexpected (s : Tokens) (expected : String) : Fault := s.fault (.unexpectedToken expected s.found)

theorem exists_of_startsWith {s : Tokens} {p : TokenKind → Bool} (h : s.startsWith p = true) :
    ∃ t rest, s = t :: rest ∧ p t.kind = true := by
  cases s with
  | nil => contradiction
  | cons t rest => exact ⟨t, rest, rfl, h⟩

theorem skipBlank_suffix (s : Tokens) : s.skipBlank <:+ s := List.dropWhile_suffix _

end Tokens

/-- What a production makes of a list of tokens. -/
inductive Outcome (α : Type) where
  | accepted (result : α) (rest : Tokens)
  | rejected (fault : Fault) (rest : Tokens)

namespace Outcome

variable {α β : Type}

def rest : Outcome α → Tokens
  | .accepted _ rest => rest
  | .rejected _ rest => rest

def map (f : α → β) : Outcome α → Outcome β
  | .accepted a rest => .accepted (f a) rest
  | .rejected e rest => .rejected e rest

@[simp] theorem rest_map (f : α → β) (o : Outcome α) : (o.map f).rest = o.rest := by
  cases o <;> rfl

end Outcome

/-- A rule of the grammar as a reader. -/
def Production (α : Type) := Tokens → Outcome α

namespace Production

variable {α β : Type}

instance : Monad Production where
  pure a := fun s => .accepted a s
  bind p f := fun s =>
    match p s with
    | .accepted a rest => f a rest
    | .rejected e rest => .rejected e rest

/-- Takes the next token if it is of the kind, and stops in front of it otherwise. -/
def take (p : TokenKind → Bool) (cause : Tokens → Fault.Cause) : Production Tree := fun s =>
  match s with
  | [] => .rejected (s.fault (cause s)) s
  | t :: rest => if p t.kind then .accepted t.leaf rest else .rejected (s.fault (cause s)) s

/-- Takes the next token if it is of the kind. -/
def take? (p : TokenKind → Bool) : Production (Option Tree) := fun s =>
  match s with
  | [] => .accepted none s
  | t :: rest => if p t.kind then .accepted (some t.leaf) rest else .accepted none s

/-- Goes past whitespace. -/
def blank : Production Unit := fun s => .accepted () s.skipBlank

/-- Looks at what is left and takes nothing. -/
def ahead : Production Tokens := fun s => .accepted s s

/-- Stops here. -/
def reject (cause : Tokens → Fault.Cause) : Production α := fun s => .rejected (s.fault (cause s)) s

@[simp] theorem pure_apply (a : α) (s : Tokens) : (pure a : Production α) s = .accepted a s := rfl

@[simp] theorem bind_apply (p : Production α) (f : α → Production β) (s : Tokens) :
    (p >>= f) s = match p s with
      | .accepted a rest => f a rest
      | .rejected e rest => .rejected e rest := rfl

theorem take_cons (p : TokenKind → Bool) (cause : Tokens → Fault.Cause) (t : Placed)
    (rest : Tokens) : take p cause (t :: rest) =
      if p t.kind then .accepted t.leaf rest
      else .rejected (Tokens.fault (t :: rest) (cause (t :: rest))) (t :: rest) := rfl

theorem take?_cons (p : TokenKind → Bool) (t : Placed) (rest : Tokens) : take? p (t :: rest) =
    if p t.kind then .accepted (some t.leaf) rest else .accepted none (t :: rest) := rfl

@[simp] theorem take?_nil (p : TokenKind → Bool) : take? p [] = .accepted none [] := rfl

@[simp] theorem blank_apply (s : Tokens) : blank s = .accepted () s.skipBlank := rfl

@[simp] theorem ahead_apply (s : Tokens) : ahead s = .accepted s s := rfl

@[simp] theorem reject_apply (cause : Tokens → Fault.Cause) (s : Tokens) :
    (reject cause : Production α) s = .rejected (s.fault (cause s)) s := rfl

/-- What is left is an end of what was given. -/
def Advances (p : Production α) : Prop := ∀ s, (p s).rest <:+ s

/-- A production that accepts takes at least one token. -/
def Consumes (p : Production α) : Prop :=
  ∀ s a rest, p s = .accepted a rest → rest.length < s.length

namespace Advances

theorem pure (a : α) : Advances (pure a : Production α) := fun s => List.suffix_refl s

/-- Two steps from one list of tokens. -/
theorem bind_at {p : Production α} {f : α → Production β} {s : Tokens} (hp : (p s).rest <:+ s)
    (hf : ∀ a rest, p s = .accepted a rest → (f a rest).rest <:+ rest) :
    ((p >>= f) s).rest <:+ s := by
  simp only [bind_apply]
  split
  · rename_i a rest e
    rw [e] at hp
    exact (hf a rest e).trans hp
  · rename_i e rest e'
    rw [e'] at hp
    exact hp

theorem bind {p : Production α} {f : α → Production β} (hp : Advances p)
    (hf : ∀ a, Advances (f a)) : Advances (p >>= f) := fun s =>
  bind_at (hp s) fun a rest _ => hf a rest

theorem take (p : TokenKind → Bool) (cause : Tokens → Fault.Cause) : Advances (take p cause) := by
  intro s
  unfold Production.take
  split
  · exact List.suffix_refl _
  · split
    · exact List.suffix_cons _ _
    · exact List.suffix_refl _

theorem take? (p : TokenKind → Bool) : Advances (take? p) := by
  intro s
  unfold Production.take?
  split
  · exact List.suffix_refl _
  · split
    · exact List.suffix_cons _ _
    · exact List.suffix_refl _

theorem blank : Advances blank := Tokens.skipBlank_suffix

theorem ahead : Advances ahead := List.suffix_refl

theorem reject (cause : Tokens → Fault.Cause) : Advances (reject cause : Production α) :=
  List.suffix_refl

theorem ite {c : Prop} [Decidable c] {p q : Production α} (hp : Advances p) (hq : Advances q) :
    Advances (if c then p else q) := by
  split
  · exact hp
  · exact hq

/-- A production that may stop anywhere leaves no more than it was given. -/
theorem length_le {p : Production α} (hp : Advances p) (s : Tokens) : (p s).rest.length ≤ s.length :=
  (hp s).length_le

end Advances

theorem take?_length {p : TokenKind → Bool} {s rest : Tokens} {t : Tree}
    (h : take? p s = .accepted (some t) rest) : rest.length < s.length := by
  match s with
  | [] => cases h
  | u :: left =>
    rw [take?_cons] at h
    split at h <;> cases h
    simp

namespace Consumes

theorem take (p : TokenKind → Bool) (cause : Tokens → Fault.Cause) : Consumes (take p cause) := by
  intro s a rest h
  unfold Production.take at h
  split at h
  · contradiction
  · split at h
    · cases h
      simp
    · contradiction

/-- One step that takes a token is enough. -/
theorem bind {p : Production α} {f : α → Production β} (hp : Consumes p)
    (hf : ∀ a, Advances (f a)) : Consumes (p >>= f) := by
  intro s b rest h
  simp only [bind_apply] at h
  split at h
  · rename_i a between e
    have h₁ := hp s a between e
    have h₂ := (hf a).length_le between
    rw [h] at h₂
    exact Nat.lt_of_le_of_lt h₂ h₁
  · contradiction

theorem bind_right {p : Production α} {f : α → Production β} (hp : Advances p)
    (hf : ∀ a, Consumes (f a)) : Consumes (p >>= f) := by
  intro s b rest h
  have h₁ := hp.length_le s
  simp only [bind_apply] at h
  split at h
  · rename_i a between e
    rw [e] at h₁
    exact Nat.lt_of_lt_of_le (hf a between b rest h) h₁
  · contradiction

theorem ite {c : Prop} [Decidable c] {p q : Production α} (hp : Consumes p) (hq : Consumes q) :
    Consumes (if c then p else q) := by
  split
  · exact hp
  · exact hq

end Consumes

end Production

end Stylesheet
