import Stylesheet.Proofs.Grammar.Stable

/-!
# Brackets around what is read

A row of tokens is balanced if every bracket in it is closed by its own kind. What is left of such a row,
from a place inside it, closes the brackets that are open there one after the other (`Inside`). A value
that is accepted leaves the brackets as they were, and one that is rejected is left inside the function
calls that it opened (`value_stays`); so a declaration that is given up can be given up inside calls, and
in no other brackets (`declaration_leaves`). For this nothing has to be known of what is left but that it
follows the brackets token by token (`TracksBrackets`).
-/

namespace Stylesheet.Grammar

open Production Tokens

/-- Rows of tokens in which every bracket is closed by its own kind; a function token opens a parenthesis.
    Outside all brackets semicolons stand in `divided` rows only. -/
inductive Balanced : Bool → Tokens → Prop
  | nil {divided : Bool} : Balanced divided []
  | token {divided : Bool} {t : Placed} {s : Tokens} (ho : t.kind.opens? = none)
      (hc : t.kind.isClosing = false) (hs : divided = false → t.kind ≠ .semicolon)
      (h : Balanced divided s) : Balanced divided (t :: s)
  | group {divided : Bool} {o c : Placed} {inner s : Tokens} {b : Bracket}
      (ho : o.kind.opens? = some b) (hc : c.kind = .closing b) (hi : Balanced true inner)
      (h : Balanced divided s) : Balanced divided (o :: (inner ++ c :: s))

/-- What is left of a row inside some open brackets, the innermost first: it closes them one after the
    other, and behind the last of them comes the first token of the kind that ends it, with other tokens
    behind this one. -/
inductive Inside (ending : Placed) (behind : Tokens) : List Bracket → Tokens → Prop
  | stop : Inside ending behind [] (ending :: behind)
  | token {stack : List Bracket} {t : Placed} {s : Tokens} (ho : t.kind.opens? = none)
      (hc : t.kind.isClosing = false) (hs : stack = [] → t.kind ≠ ending.kind)
      (h : Inside ending behind stack s) : Inside ending behind stack (t :: s)
  | opening {stack : List Bracket} {t : Placed} {s : Tokens} {b : Bracket}
      (ho : t.kind.opens? = some b) (h : Inside ending behind (b :: stack) s) :
      Inside ending behind stack (t :: s)
  | closing {stack : List Bracket} {t : Placed} {s : Tokens} {b : Bracket}
      (hc : t.kind = .closing b) (h : Inside ending behind stack s) :
      Inside ending behind (b :: stack) (t :: s)

variable {ending : Placed} {behind : Tokens}

theorem group_append (o c : Placed) (inner row s : Tokens) :
    (o :: (inner ++ c :: row)) ++ s = o :: (inner ++ c :: (row ++ s)) := by
  rw [List.cons_append, List.append_assoc, List.cons_append]

/-- Semicolons may stand outside brackets. -/
theorem Balanced.divided {divided : Bool} {row : Tokens} (h : Balanced divided row) :
    Balanced true row := by
  induction h with
  | nil => exact .nil
  | token ho hc _ _ ih => exact .token ho hc nofun ih
  | group ho hc hi _ _ ih => exact .group ho hc hi ih

/-- Behind an opening bracket of a balanced row comes a balanced row, and then its closing one. -/
theorem Balanced.opened {divided : Bool} {row front rest : Tokens} {o : Placed} {b : Bracket}
    (h : Balanced divided row) (e : row = front ++ o :: rest) (ho : o.kind.opens? = some b) :
    ∃ inner c behind, rest = inner ++ c :: behind ∧ c.kind = .closing b ∧ Balanced true inner := by
  induction h generalizing front rest with
  | nil => simp at e
  | @token _ t row ho' _ _ _ ih =>
    rcases List.cons_eq_append_iff.1 e with ⟨-, e'⟩ | ⟨front, -, e'⟩
    · cases e'
      rw [ho] at ho'
      contradiction
    · exact ih e'
  | @group _ o' c inner row b' ho' hc hi _ ihi ih =>
    rcases List.cons_eq_append_iff.1 e with ⟨-, e'⟩ | ⟨front, -, e'⟩
    · cases e'
      rw [ho] at ho'
      cases ho'
      exact ⟨inner, c, row, rfl, hc, hi⟩
    · -- the bracket stands in front of the closing one of the group, or behind it
      rcases List.append_eq_append_iff.1 e' with ⟨left, -, e'⟩ | ⟨left, hl, e'⟩
      · rcases List.cons_eq_append_iff.1 e' with ⟨-, e'⟩ | ⟨left, -, e'⟩
        · cases e'
          rw [hc] at ho
          contradiction
        · exact ih e'
      · rcases List.cons_eq_append_iff.1 e' with ⟨rfl, e'⟩ | ⟨left, rfl, rfl⟩
        · cases e'
          rw [hc] at ho
          contradiction
        · obtain ⟨inner, c', behind, rfl, hc', hi'⟩ := ihi hl
          exact ⟨inner, c', behind ++ c :: row, by simp, hc', hi'⟩

/-- What a declaration goes up to: its semicolon, or the brace of the block around it. -/
def EndsDeclaration (k : TokenKind) : Prop := k = .semicolon ∨ k = .closing .brace

/-- A balanced row in front changes nothing about the brackets. -/
theorem Balanced.inside {divided : Bool} {row : Tokens} (h : Balanced divided row)
    (hend : EndsDeclaration ending.kind) {stack : List Bracket} {s : Tokens}
    (hd : divided = true → ending.kind = .semicolon → stack ≠ [])
    (hs : Inside ending behind stack s) : Inside ending behind stack (row ++ s) := by
  induction h generalizing stack s with
  | nil => exact hs
  | @token divided t row ho hc hk _ ih =>
    refine .token ho hc (fun e he => ?_) (ih hd hs)
    rcases hend with hsemi | hbrace
    · cases divided with
      | false => exact hk rfl (he.trans hsemi)
      | true => exact hd rfl hsemi e
    · rw [he, hbrace] at hc
      contradiction
  | @group divided o c inner row b ho hc _ _ ihi ih =>
    have hclose : Inside ending behind (b :: stack) (c :: (row ++ s)) := .closing hc (ih hd hs)
    have hinner := ihi (fun _ _ => List.cons_ne_nil b stack) hclose
    rw [group_append]
    exact .opening ho hinner

/-- No bracket and no semicolon. -/
def isFiller (k : TokenKind) : Bool := k.opens?.isNone && !k.isClosing && k != .semicolon

/-! ## One token -/

namespace Inside

variable {stack : List Bracket} {t : Placed} {s : Tokens} {b : Bracket}

theorem ne_nil (h : Inside ending behind stack s) : s ≠ [] := by
  cases h <;> exact List.cons_ne_nil _ _

theorem opened (h : Inside ending behind stack (t :: s)) (hend : EndsDeclaration ending.kind)
    (ho : t.kind.opens? = some b) : Inside ending behind (b :: stack) s := by
  cases h with
  | stop => rcases hend with e | e <;> rw [e] at ho <;> contradiction
  | token ho' => rw [ho'] at ho; contradiction
  | opening ho' h => rw [ho'] at ho; cases ho; exact h
  | closing hc => rw [hc] at ho; contradiction

/-- A closing bracket is the one behind all brackets, or closes the innermost one. -/
theorem atClosing (h : Inside ending behind stack (t :: s)) (hc : t.kind = .closing b) :
    (stack = [] ∧ t = ending ∧ s = behind) ∨
      ∃ outer, stack = b :: outer ∧ Inside ending behind outer s := by
  cases h with
  | stop => exact Or.inl ⟨rfl, rfl, rfl⟩
  | token _ hc' => rw [hc] at hc'; contradiction
  | opening ho => rw [hc] at ho; contradiction
  | closing hc' h => rw [hc] at hc'; cases hc'; exact Or.inr ⟨_, rfl, h⟩

theorem closed (h : Inside ending behind stack (t :: s)) (hend : ending.kind ≠ .closing b)
    (hc : t.kind = .closing b) : ∃ outer, stack = b :: outer ∧ Inside ending behind outer s := by
  rcases h.atClosing hc with ⟨-, rfl, -⟩ | h
  · exact absurd hc hend
  · exact h

/-- A semicolon is the one behind all brackets, or it ends nothing. -/
theorem atSemicolon (h : Inside ending behind stack (t :: s)) (hk : t.kind = .semicolon) :
    (ending.kind = .semicolon ∧ stack = [] ∧ s = behind) ∨
      ((ending.kind = .semicolon → stack ≠ []) ∧ Inside ending behind stack s) := by
  cases h with
  | stop => exact Or.inl ⟨hk, rfl, rfl⟩
  | token _ _ hs h => exact Or.inr ⟨fun hsemi e => hs e (hk.trans hsemi.symm), h⟩
  | opening ho => rw [hk] at ho; contradiction
  | closing hc => rw [hk] at hc; contradiction

/-- Any other token changes nothing about the brackets. -/
theorem filler (h : Inside ending behind stack (t :: s)) (hend : EndsDeclaration ending.kind)
    (hk : isFiller t.kind = true) : Inside ending behind stack s := by
  cases h with
  | stop => rcases hend with e | e <;> rw [e] at hk <;> contradiction
  | token _ _ _ h => exact h
  | opening ho => simp [isFiller, ho] at hk
  | closing hc => rw [hc] at hk; contradiction

end Inside

/-! ## Productions -/

/-- A property of what is left inside some brackets, the innermost first, that goes along with the tokens as
    they open and close them. -/
structure TracksBrackets (I : List Bracket → Tokens → Prop) : Prop where
  filler {stack : List Bracket} {t : Placed} {s : Tokens} (h : I stack (t :: s))
    (hk : isFiller t.kind = true) : I stack s
  opened {stack : List Bracket} {t : Placed} {s : Tokens} {b : Bracket} (h : I stack (t :: s))
    (ho : t.kind.opens? = some b) : I (b :: stack) s
  closed {stack : List Bracket} {t : Placed} {s : Tokens} {b : Bracket} (h : I (b :: stack) (t :: s))
    (hc : t.kind = .closing b) : I stack s

theorem Inside.tracks (hend : EndsDeclaration ending.kind) :
    TracksBrackets (Inside ending behind) where
  filler h hk := h.filler hend hk
  opened h ho := h.opened hend ho
  closed h hc := by
    obtain ⟨e, -, -⟩ | ⟨outer, e, h⟩ := h.atClosing hc
    · contradiction
    · cases e
      exact h

section

variable {α β : Type} {A B R : Tokens → Prop}

/-- What is left of an outcome that is accepted, and of one that is rejected. -/
def Leaves (A R : Tokens → Prop) : Outcome α → Prop
  | .accepted _ rest => A rest
  | .rejected _ rest => R rest

theorem Leaves.mono {A' R' : Tokens → Prop} (hA : ∀ r, A r → A' r) (hR : ∀ r, R r → R' r)
    {o : Outcome α} (h : Leaves A R o) : Leaves A' R' o := by
  cases o with
  | accepted a rest => exact hA rest h
  | rejected f rest => exact hR rest h

theorem Leaves.bind_at {p : Production α} {f : α → Production β} {s : Tokens} (hp : Leaves A R (p s))
    (hf : ∀ a rest, p s = .accepted a rest → A rest → Leaves B R (f a rest)) :
    Leaves B R ((p >>= f) s) := by
  rw [bind_apply]
  cases e : p s with
  | accepted a rest =>
    rw [e] at hp
    exact hf a rest e hp
  | rejected f rest =>
    rw [e] at hp
    exact hp

variable {I : List Bracket → Tokens → Prop}

/-- Inside some open brackets, or inside calls that were opened in them as well. -/
def InCalls (I : List Bracket → Tokens → Prop) (stack : List Bracket) (s : Tokens) : Prop :=
  ∃ calls, I (List.replicate calls .paren ++ stack) s

theorem inCalls {stack : List Bracket} {s : Tokens} (h : I stack s) : InCalls I stack s := ⟨0, h⟩

theorem InCalls.outer {stack : List Bracket} {s : Tokens} (h : InCalls I (.paren :: stack) s) :
    InCalls I stack s := by
  obtain ⟨calls, h⟩ := h
  refine ⟨calls + 1, ?_⟩
  rw [List.replicate_succ', List.append_assoc]
  exact h

/-- From inside some brackets, what is accepted is left inside the same ones, and what is rejected in them
    or in calls that were opened in them. -/
abbrev StaysAt (I : List Bracket → Tokens → Prop) (stack : List Bracket) : Outcome α → Prop :=
  Leaves (I stack) (InCalls I stack)

variable {stack : List Bracket} {s : Tokens} (hI : TracksBrackets I) (h : I stack s)

include hI h

theorem TracksBrackets.skipBlank : I stack s.skipBlank := by
  induction s with
  | nil => exact h
  | cons t s ih =>
    by_cases hw : t.kind = .whitespace
    · rw [skipBlank_blank hw]
      exact ih (hI.filler h (by rw [hw]; rfl))
    · rw [skipBlank_cons hw]
      exact h

theorem blank_stays : StaysAt I stack (blank s) := hI.skipBlank h

theorem take_stays {p : TokenKind → Bool} (hp : ∀ k, p k = true → isFiller k = true)
    (cause : Tokens → Fault.Cause) : StaysAt I stack (take p cause s) := by
  cases s with
  | nil => exact inCalls h
  | cons t s =>
    rw [take_cons]
    split
    · rename_i ht
      exact hI.filler h (hp _ ht)
    · exact inCalls h

theorem take?_stays {p : TokenKind → Bool} (hp : ∀ k, p k = true → isFiller k = true) :
    StaysAt I stack (take? p s) := by
  cases s with
  | nil => exact h
  | cons t s =>
    rw [take?_cons]
    split
    · rename_i ht
      exact hI.filler h (hp _ ht)
    · exact h

end

theorem Inside.skipBlank {stack : List Bracket} {s : Tokens} (h : Inside ending behind stack s)
    (hend : EndsDeclaration ending.kind) : Inside ending behind stack s.skipBlank :=
  (Inside.tracks hend).skipBlank h

/-! ## Values -/

section

variable {I : List Bracket → Tokens → Prop} (hI : TracksBrackets I) {stack : List Bracket} {s : Tokens}

include hI

theorem argumentName?_stays {named : Bool} {t : Placed} {rest left : Tokens} {e : Tree}
    (h : I stack (t :: rest)) (hn : argumentName? named t rest = some (e, left)) : I stack left := by
  unfold argumentName? at hn
  split at hn
  · rename_i hi
    have hname : isFiller t.kind = true := by
      have hi := (Bool.and_eq_true_iff.1 hi).2
      cases hk : t.kind <;> rw [hk] at hi <;> first | rfl | contradiction
    have hrest := hI.skipBlank (hI.filler h hname)
    unfold equalsSign? at hn
    split at hn
    · rename_i u r hu
      rw [hu] at hrest
      split at hn
      · rename_i hk
        cases hn
        exact hI.skipBlank (hI.filler hrest (by rw [hk]; rfl))
      · contradiction
    · contradiction
  · contradiction

/-- The parenthesis that closes a call, where it is asked for. -/
theorem closingParen_stays (h : I (.paren :: stack) s) (cause : Tokens → Fault.Cause) :
    StaysAt I stack (take isClosingParen cause s) := by
  cases s with
  | nil => exact (inCalls h).outer
  | cons t s =>
    rw [take_cons]
    split
    · rename_i hk
      exact hI.closed h (eq_of_beq hk)
    · exact (inCalls h).outer

/-- Behind its opening parenthesis, a function call closes it or stops inside it. -/
theorem functionCall_stays (function : Tree) (h : I (.paren :: stack) s)
    (hv : ∀ r : Tokens, r.length ≤ s.length → I (.paren :: stack) r →
      StaysAt I (.paren :: stack) (value true r)) :
    StaysAt I stack (functionCall function s) := by
  have hblank := hI.skipBlank h
  have hl := skipBlank_length_le s
  rw [functionCall, bind_apply, blank_apply]
  dsimp only
  generalize Tokens.skipBlank s = r at hblank hl
  -- until the parenthesis is closed, this call is one of those that are left open
  have arguments : StaysAt I stack ((do
      let arguments ← value true
      blank
      let close ← take isClosingParen fun s => .unexpectedToken "')'" s.found
      return .node .functionCall function.first [function, arguments, close] : Production Tree) r) := by
    have hvalue := (hv r hl hblank).mono (fun _ h => h) fun _ h => h.outer
    refine Leaves.bind_at hvalue fun arguments q _ hq => ?_
    refine Leaves.bind_at (A := I (.paren :: stack)) (hI.skipBlank hq) fun _ q _ hq => ?_
    exact Leaves.bind_at (closingParen_stays hI hq _) fun _ _ _ hr => hr
  cases r with
  | nil => exact arguments
  | cons t r =>
    rw [bind_apply, take?_cons]
    by_cases hk : isClosingParen t.kind = true
    · rw [if_pos hk]
      exact hI.closed hblank (eq_of_beq hk)
    · rw [if_neg hk]
      exact arguments

/-- A term stays inside the brackets where the terms and values of shorter rows do. -/
theorem term_stays_at {named : Bool} (h : I stack s)
    (ht : ∀ r : Tokens, r.length < s.length → I stack r → StaysAt I stack (term false r))
    (hv : ∀ (stack : List Bracket) (r : Tokens), r.length < s.length → I stack r →
      StaysAt I stack (value true r)) :
    StaysAt I stack (term named s) := by
  cases s with
  | nil =>
    rw [term_eq]
    exact inCalls h
  | cons t r =>
    rw [term_cons]
    split
    · rename_i equals left hn
      have hl : left.length < (t :: r).length :=
        Nat.lt_succ_of_le (argumentName?_suffix hn).1.length_le
      exact Leaves.bind_at (ht left hl (argumentName?_stays hI h hn)) fun _ _ _ hr => hr
    · split
      · -- a function call, whose arguments are read with one more bracket to close
        rename_i name hk
        refine functionCall_stays hI t.leaf (hI.opened h (by rw [hk]; rfl)) fun q hq => ?_
        exact hv _ q (Nat.lt_succ_of_le hq)
      · split
        · -- a token by itself is no bracket, since only function tokens open one here
          rename_i hf hs
          refine hI.filler h ?_
          cases hk : t.kind with
          | function name => exact absurd hk (hf name)
          | _ => rw [hk] at hs; first | rfl | contradiction
        · exact inCalls h

/-- What follows a term stays inside the brackets where terms do, and where what follows does for shorter
    rows. -/
theorem terms_stays_at {named : Bool} (h : I stack s)
    (ht : ∀ r : Tokens, r.length ≤ s.length → I stack r → StaysAt I stack (term named r))
    (hts : ∀ r : Tokens, r.length < s.length → I stack r → StaysAt I stack (terms named r)) :
    StaysAt I stack (terms named s) := by
  have hblank := hI.skipBlank h
  have hl := skipBlank_length_le s
  rw [terms_eq]
  split
  · rename_i e
    rw [e] at hblank
    exact hblank
  · rename_i t r e
    rw [e] at hblank hl
    rw [List.length_cons] at hl
    split
    · rename_i hs
      have hr : I stack r := hI.filler hblank (by
        cases hk : t.kind <;> rw [hk] at hs <;> first | rfl | contradiction)
      refine Leaves.bind_at (blank_stays hI hr) fun _ q hb hq => ?_
      have hq' : q.length ≤ r.length := by
        cases hb
        exact skipBlank_length_le r
      refine Leaves.bind_at (ht q (by omega) hq) fun next p hn hp => ?_
      have hc := term_consumes named q next p hn
      exact Leaves.bind_at (hts p (by omega) hp) fun _ _ _ hr => hr
    · split
      · refine Leaves.bind_at (ht (t :: r) hl hblank) fun next p hn hp => ?_
        have hc := term_consumes named (t :: r) next p hn
        rw [List.length_cons] at hc
        exact Leaves.bind_at (hts p (by omega) hp) fun _ _ _ hr => hr
      · exact hblank

omit hI in
/-- A value stays inside the brackets where its terms do. -/
theorem value_stays_at {named : Bool} (ht : StaysAt I stack (term named s))
    (hts : ∀ r : Tokens, r.length < s.length → I stack r → StaysAt I stack (terms named r)) :
    StaysAt I stack (value named s) := by
  rw [value_eq]
  refine Leaves.bind_at ht fun first r hf hr => ?_
  have hl := term_consumes named s first r hf
  exact Leaves.bind_at (hts r hl hr) fun _ _ _ hr => hr

/-- A value is accepted behind all brackets that it opens, and rejected inside calls at most. -/
theorem value_stays (named : Bool) (h : I stack s) : StaysAt I stack (value named s) := by
  -- the brackets vary, since a function call is one more of them
  refine (values_induction
    (P := fun named s => ∀ stack, I stack s → StaysAt I stack (term named s))
    (Q := fun named s => ∀ stack, I stack s → StaysAt I stack (terms named s))
    (R := fun named s => ∀ stack, I stack s → StaysAt I stack (value named s)) ?_ ?_ ?_ named s).2.2
      stack h
  · intro named s ht hv stack h
    exact term_stays_at hI h (fun r hr => ht r hr stack) fun stack r hr => hv r hr stack
  · intro named s ht hts stack h
    exact terms_stays_at hI h (fun r hr => ht r hr stack) fun r hr => hts r hr stack
  · intro named s ht hts stack h
    exact value_stays_at (ht stack h) fun r hr => hts r hr stack

omit hI in
theorem valueAhead_stays (name : Option Placed) (h : I stack s) :
    StaysAt I stack (valueAhead name s) := by
  unfold valueAhead
  split
  · exact inCalls h
  · exact h

/-- A declaration is rejected in further calls at most, and accepted where its end is. -/
theorem declaration_stays {A : Tokens → Prop} (h : I stack s)
    (hlast : ∀ r, I stack r → Leaves A (InCalls I stack) (declarationEnd r)) :
    Leaves A (InCalls I stack) (declaration s) := by
  have only {k : TokenKind} (hk : isFiller k = true) : ∀ l, (l == k) = true → isFiller l = true :=
    fun l hl => eq_of_beq hl ▸ hk
  have ident (k : TokenKind) (hk : k.isIdent = true) : isFiller k = true := by
    cases k <;> first | rfl | contradiction
  refine Leaves.bind_at (A := I stack) h fun _ r _ hr => ?_
  refine Leaves.bind_at (take_stays hI hr ident _) fun name r _ hr => ?_
  refine Leaves.bind_at (blank_stays hI hr) fun _ r _ hr => ?_
  refine Leaves.bind_at (take_stays hI hr (only rfl) _) fun colon r _ hr => ?_
  refine Leaves.bind_at (blank_stays hI hr) fun _ r _ hr => ?_
  refine Leaves.bind_at (valueAhead_stays _ hr) fun _ r _ hr => ?_
  refine Leaves.bind_at (value_stays hI false hr) fun value r _ hr => ?_
  refine Leaves.bind_at (blank_stays hI hr) fun _ r _ hr => ?_
  refine Leaves.bind_at (take?_stays hI hr (only rfl)) fun important r _ hr => ?_
  refine Leaves.bind_at (blank_stays hI hr) fun _ r _ hr => ?_
  exact Leaves.bind_at (hlast r hr) fun _ _ _ hr => hr

end

/-! ## Declarations -/

/-- Behind a declaration: behind the semicolon that ends the row, or still inside it. -/
def Past (ending : Placed) (behind : Tokens) (stack : List Bracket) (s : Tokens) : Prop :=
  (ending.kind = .semicolon ∧ stack = [] ∧ s = behind) ∨
    ((ending.kind = .semicolon → stack ≠ []) ∧ Inside ending behind stack s)

section

variable {calls : Nat} {s : Tokens}

theorem replicate_ne_brace {outer : List Bracket} :
    List.replicate calls Bracket.paren ≠ .brace :: outer := by
  cases calls <;> simp [List.replicate_succ]

/-- A declaration ends with a semicolon or in front of the brace that ends the row, since a brace closes
    no call. -/
theorem declarationEnd_leaves (h : Inside ending behind (List.replicate calls .paren) s) :
    Leaves (Past ending behind (List.replicate calls .paren))
      (InCalls (Inside ending behind) (List.replicate calls .paren)) (declarationEnd s) := by
  cases s with
  | nil => exact absurd rfl h.ne_nil
  | cons t r =>
    rw [declarationEnd, bind_apply, take?_cons]
    by_cases hk : t.kind = .semicolon
    · rw [if_pos (beq_iff_eq.2 hk)]
      exact h.atSemicolon hk
    · rw [if_neg (by simpa using hk)]
      dsimp only
      rw [bind_apply, ahead_apply]
      dsimp only
      split
      · rename_i hb
        have hb : t.kind = .closing .brace := by simpa [startsWith] using hb
        obtain ⟨-, e, -⟩ | ⟨outer, e, -⟩ := h.atClosing hb
        · rw [e] at hb
          exact Or.inr ⟨fun hsemi => by rw [hsemi] at hb; contradiction, h⟩
        · exact absurd e replicate_ne_brace
      · exact inCalls h

/-- Inside calls, a declaration is accepted up to its end, and rejected in further calls at most. -/
theorem declaration_leaves (hend : EndsDeclaration ending.kind)
    (h : Inside ending behind (List.replicate calls .paren) s) :
    Leaves (Past ending behind (List.replicate calls .paren))
      (InCalls (Inside ending behind) (List.replicate calls .paren)) (declaration s) :=
  declaration_stays (Inside.tracks hend) h fun _ => declarationEnd_leaves

/-! ## Skipping -/

/-- The skip stops in front of a brace or behind a semicolon, and goes on elsewhere. -/
theorem skipDeclaration_cons (depth : Nat) (t : Placed) (rest : Tokens) :
    skipDeclaration depth (t :: rest) =
      if depth = 0 ∧ t.kind = .closing .brace then ⟨[], t :: rest⟩
      else if depth = 0 ∧ t.kind = .semicolon then ⟨[t.leaf], rest⟩
      else (skipDeclaration (bracketDepth depth t.kind) rest).cons t := by
  rw [skipDeclaration, bracketDepth]
  split_ifs <;> rfl

/-- The skip stops at a semicolon that stands in no brackets which opened behind its start, or in front of
    it. -/
theorem skipDeclaration_rest_length {depth : Nat} {a b : Tokens} {t : Placed}
    (hk : t.kind = .semicolon) (hd : (a.map Placed.kind).foldl bracketDepth depth = 0) :
    b.length ≤ (skipDeclaration depth (a ++ t :: b)).rest.length := by
  induction a generalizing depth with
  | nil =>
    have hd : depth = 0 := hd
    rw [List.nil_append, skipDeclaration_cons, if_neg (by simp [hk]), if_pos ⟨hd, hk⟩]
  | cons u a ih =>
    rw [List.cons_append, skipDeclaration_cons]
    split_ifs
    · simp
      omega
    · simp
      omega
    · exact ih hd

/-- Behind a token that the skip goes on behind, with `inner` brackets to close before the calls, there are
    as many of them to close as the skip is deep. -/
theorem Inside.step (hend : EndsDeclaration ending.kind) {inner : List Bracket} {t : Placed}
    (h : Inside ending behind (inner ++ List.replicate calls .paren) (t :: s))
    (hk : ¬(inner.length = 0 ∧ EndsDeclaration t.kind)) :
    ∃ inner' calls', bracketDepth inner.length t.kind = inner'.length ∧
      Inside ending behind (inner' ++ List.replicate calls' .paren) s := by
  cases ho : t.kind.opens? with
  | some b => exact ⟨b :: inner, calls, by simp [bracketDepth, ho], h.opened hend ho⟩
  | none =>
    cases hc : t.kind.isClosing with
    | true =>
      obtain ⟨b, hkind⟩ : ∃ b, t.kind = .closing b := by
        cases hkind : t.kind <;> rw [hkind] at hc <;> first | exact ⟨_, rfl⟩ | contradiction
      have hd : bracketDepth inner.length t.kind = inner.length - 1 := by simp [bracketDepth, ho, hc]
      obtain ⟨e, rfl, -⟩ | ⟨outer, e, hs⟩ := h.atClosing hkind
      · rw [List.append_eq_nil_iff] at e
        exact absurd ⟨by rw [e.1]; rfl, hend⟩ hk
      · cases inner with
        | cons c inner =>
          obtain ⟨-, rfl⟩ := List.cons.inj e
          exact ⟨inner, calls, hd, hs⟩
        | nil =>
          -- the innermost call is closed, which the skip does not see
          cases calls with
          | zero => contradiction
          | succ calls =>
            obtain ⟨-, rfl⟩ := List.cons.inj e
            exact ⟨[], calls, hd, hs⟩
    | false =>
      refine ⟨inner, calls, by simp [bracketDepth, ho, hc], ?_⟩
      by_cases hsc : t.kind = .semicolon
      · obtain ⟨-, e, -⟩ | ⟨-, hs⟩ := h.atSemicolon hsc
        · rw [List.append_eq_nil_iff] at e
          exact absurd ⟨by rw [e.1]; rfl, Or.inl hsc⟩ hk
        · exact hs
      · exact h.filler hend (by simp [isFiller, ho, hc, hsc])

/-- A skip that begins inside calls, with `inner` brackets to close first, ends behind the semicolon that is
    behind all of them, or in some of the calls; where a semicolon ends the row, at one in these calls. -/
theorem skipDeclaration_inside (hend : EndsDeclaration ending.kind) {inner : List Bracket}
    (h : Inside ending behind (inner ++ List.replicate calls .paren) s) :
    (ending.kind = .semicolon ∧ (skipDeclaration inner.length s).rest = behind) ∨
      ∃ fewer, Inside ending behind (List.replicate fewer .paren)
          (skipDeclaration inner.length s).rest ∧
        (ending.kind = .semicolon → 0 < fewer ∧
          ∃ a t, s = a ++ t :: (skipDeclaration inner.length s).rest ∧ t.kind = .semicolon ∧
            (a.map Placed.kind).foldl bracketDepth inner.length = 0) := by
  induction s generalizing inner calls with
  | nil => exact absurd rfl h.ne_nil
  | cons t s ih =>
    rw [skipDeclaration_cons]
    by_cases hb : inner.length = 0 ∧ t.kind = .closing .brace
    · rw [if_pos hb]
      rw [List.eq_nil_of_length_eq_zero hb.1, List.nil_append] at h
      refine Or.inr ⟨calls, h, fun hsemi => ?_⟩
      -- no brace is closed in front of a semicolon behind all brackets
      obtain ⟨outer, e, -⟩ := h.closed (by rw [hsemi]; decide) hb.2
      exact absurd e replicate_ne_brace
    rw [if_neg hb]
    by_cases hk : inner.length = 0 ∧ t.kind = .semicolon
    · rw [if_pos hk]
      obtain ⟨hsemi, -, e⟩ | ⟨hne, hs⟩ := h.atSemicolon hk.2
      · exact Or.inl ⟨hsemi, e⟩
      · rw [List.eq_nil_of_length_eq_zero hk.1, List.nil_append] at hne hs
        refine Or.inr ⟨calls, hs, fun hsemi =>
          ⟨Nat.pos_of_ne_zero fun e => hne hsemi ?_, [], t, rfl, hk.2, hk.1⟩⟩
        rw [e]
        rfl
    · rw [if_neg hk]
      have hgo : ¬(inner.length = 0 ∧ EndsDeclaration t.kind) := fun ⟨h0, he⟩ =>
        he.elim (fun e => hk ⟨h0, e⟩) fun e => hb ⟨h0, e⟩
      obtain ⟨inner', calls', hd, hs⟩ := h.step hend hgo
      rw [hd]
      obtain e | ⟨fewer, hi, hrow⟩ := ih hs
      · exact Or.inl e
      · refine Or.inr ⟨fewer, hi, fun hsemi => ?_⟩
        obtain ⟨hf, a, u, e, hu, ha⟩ := hrow hsemi
        refine ⟨hf, t :: a, u, congrArg (t :: ·) e, hu, ?_⟩
        rw [List.map_cons, List.foldl_cons, hd]
        exact ha

end

end Stylesheet.Grammar
