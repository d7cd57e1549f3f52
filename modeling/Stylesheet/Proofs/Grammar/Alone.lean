import Stylesheet.Proofs.Grammar.Reads
import Stylesheet.Proofs.Grammar.Stable

/-!
# Values in front of a bracket

No value goes on with a closing parenthesis. So the tokens in front of one are accepted whole as a value
if and only if they are by themselves, and the tree is the same (`value_alone`). In between a production
may do otherwise: a call that has no bracket of its own takes the one behind the value. But then it leaves
less than what is behind (`AloneIn`).
-/

namespace Stylesheet.Grammar

open Production Tokens

variable {α β : Type}

/-- What the production accepts of `s`, without any of the tokens `u` behind it, it accepts of `s` alone,
    and the other way round. -/
def AloneIn (u : Tokens) (p : Production α) (s : Tokens) : Prop :=
  ∀ a rest, p (s ++ u) = .accepted a (rest ++ u) ↔ p s = .accepted a rest

namespace AloneIn

variable {u s : Tokens}

theorem pure (a : α) : AloneIn u (pure a : Production α) s := by
  intro b rest
  simp only [pure_apply, Outcome.accepted.injEq, List.append_left_inj]

theorem bind {p : Production α} {f : α → Production β} (hp : AloneIn u p s)
    (hf : ∀ a rest, p s = .accepted a rest → AloneIn u (f a) rest) (ha : ∀ a, Advances (f a)) :
    AloneIn u (p >>= f) s := by
  intro b rest
  constructor
  · intro h
    obtain ⟨a, between, hfirst, hthen⟩ := bind_eq_accepted h
    obtain ⟨left, rfl⟩ : u <:+ between :=
      (List.suffix_append rest u).trans (suffix_of_accepted (ha a) hthen)
    have halone := (hp a left).1 hfirst
    rw [bind_apply, halone]
    exact (hf a left halone b rest).1 hthen
  · intro h
    obtain ⟨a, left, hfirst, hthen⟩ := bind_eq_accepted h
    rw [bind_apply, (hp a left).2 hfirst]
    exact (hf a left hfirst b rest).2 hthen

/-- A production that goes on as another one does so with what is behind. -/
theorem step {p q : Production α} {r : Tokens} (hq : AloneIn u q r) (e : p s = q r)
    (e' : p (s ++ u) = q (r ++ u)) : AloneIn u p s := by
  intro a rest
  rw [e, e']
  exact hq a rest

/-- A production that takes more than it may accepts nothing alone either. -/
theorem neither {p : Production α} (h : ∀ a rest, p (s ++ u) ≠ .accepted a (rest ++ u))
    (h' : ∀ a rest, p s ≠ .accepted a rest) : AloneIn u p s :=
  fun a rest => iff_of_false (h a rest) (h' a rest)

theorem take (p : TokenKind → Bool) (cause : Tokens → Fault.Cause) :
    AloneIn u (take p cause) s := by
  cases s with
  | nil =>
    refine .neither (fun a rest h => ?_) fun a rest h => by contradiction
    have hl := Consumes.take p cause _ a _ h
    simp only [List.nil_append, List.length_append] at hl
    omega
  | cons t left =>
    intro a rest
    rw [List.cons_append, take_cons, take_cons]
    split
    · simp only [Outcome.accepted.injEq, List.append_left_inj]
    · exact iff_of_false nofun nofun

end AloneIn

variable {close : Placed} {u : Tokens} (hc : close.kind = .closing .paren)

include hc

theorem skipBlank_append_close (s : Tokens) :
    skipBlank (s ++ close :: u) = skipBlank s ++ close :: u := by
  have hclose : skipBlank (close :: u) = close :: u := skipBlank_cons (by simp [hc]) u
  cases h : skipBlank s with
  | nil =>
    have he : (List.dropWhile Tokens.isBlank s).isEmpty = true := List.isEmpty_iff.2 h
    rw [skipBlank, List.dropWhile_append, he, if_pos rfl]
    exact hclose
  | cons t rest =>
    rw [(solid_of_skipBlank h).skipBlank_append, h]

namespace AloneIn

variable {s : Tokens}

theorem blank : AloneIn (close :: u) blank s := by
  intro a rest
  simp only [blank_apply, skipBlank_append_close hc, Outcome.accepted.injEq, List.append_left_inj]

end AloneIn

theorem equalsSign?_append_close (s : Tokens) :
    equalsSign? (s ++ close :: u) =
      (equalsSign? s).map fun p => (p.1, p.2 ++ close :: u) := by
  rw [equalsSign?, equalsSign?, skipBlank_append_close hc]
  cases skipBlank s with
  | nil =>
    rw [List.nil_append]
    dsimp only
    rw [if_neg (by simp [hc])]
    rfl
  | cons t rest =>
    rw [List.cons_append]
    dsimp only
    rw [skipBlank_append_close hc]
    split
    · rfl
    · rfl

theorem argumentName?_append_close (named : Bool) (t : Placed) (rest : Tokens) :
    argumentName? named t (rest ++ close :: u) =
      (argumentName? named t rest).map fun p => (p.1, p.2 ++ close :: u) := by
  rw [argumentName?, argumentName?, equalsSign?_append_close hc]
  split
  · rfl
  · rfl

omit hc in
theorem value_nil (named : Bool) (t : Tree) (rest : Tokens) : value named [] ≠ .accepted t rest := by
  rw [value_eq, bind_apply, term_eq]
  nofun

/-! ## Calls -/

omit hc in
theorem argumentsOf_advances (function : Tree) : Advances (argumentsOf function) :=
  .bind (value_advances true) fun _ => .bind .blank fun _ => .bind (.take _ _) fun _ => .pure _

theorem argumentsOf_alone (function : Tree) {s : Tokens}
    (hv : AloneIn (close :: u) (value true) s) : AloneIn (close :: u) (argumentsOf function) s :=
  .bind hv
    (fun _ _ _ => .bind (.blank hc)
      (fun _ _ _ => .bind (.take _ _) (fun _ _ _ => .pure _) fun _ => .pure _)
      fun _ => .bind (.take _ _) fun _ => .pure _)
    fun _ => .bind .blank fun _ => .bind (.take _ _) fun _ => .pure _

omit hc in
theorem callOf_advances (function : Tree) : Advances (callOf function) := by
  refine .bind (.take? _) fun close => ?_
  cases close with
  | some close => exact .pure _
  | none => exact argumentsOf_advances function

theorem callOf_alone (function : Tree) {s : Tokens} (hv : AloneIn (close :: u) (value true) s) :
    AloneIn (close :: u) (callOf function) s := by
  cases s with
  | nil =>
    -- without a bracket of its own, the call takes the one behind
    refine .neither (fun a rest h => ?_) fun a rest h => ?_
    · have hclose : isClosingParen close.kind = true := by rw [hc]; rfl
      rw [List.nil_append, callOf_cons, if_pos hclose] at h
      have hlength := congrArg List.length (congrArg Outcome.rest h)
      simp only [Outcome.rest, List.length_append, List.length_cons] at hlength
      omega
    · obtain ⟨_, _, e, h⟩ := bind_eq_accepted h
      cases e
      obtain ⟨arguments, _, hvalue, -⟩ := bind_eq_accepted h
      exact value_nil true _ _ hvalue
  | cons t left =>
    by_cases ht : isClosingParen t.kind = true
    · refine .step (.pure (.node .functionCall function.first [function, t.leaf]) (s := left)) ?_ ?_
      · rw [callOf_cons, if_pos ht]
        rfl
      · rw [List.cons_append, callOf_cons, if_pos ht]
        rfl
    · refine (argumentsOf_alone hc function hv).step ?_ ?_
      · rw [callOf_cons, if_neg ht]
      · rw [List.cons_append, callOf_cons, if_neg ht]

theorem functionCall_alone (function : Tree) {s : Tokens}
    (hv : ∀ r : Tokens, r.length ≤ s.length → AloneIn (close :: u) (value true) r) :
    AloneIn (close :: u) (functionCall function) s := by
  rw [functionCall_eq]
  refine .bind (.blank hc) (fun _ r hr => callOf_alone hc function (hv r ?_))
    fun _ => callOf_advances function
  cases hr
  exact skipBlank_length_le s

/-! ## Rows of terms -/

/-- A term and the row behind it. -/
def rowAs (named : Bool) (f : Tree → List Tree → α) : Production α := do
  let first ← term named
  let more ← terms named
  return f first more

omit hc in
theorem rowAs_advances (named : Bool) (f : Tree → List Tree → α) : Advances (rowAs named f) :=
  .bind (term_advances named) fun _ => .bind (fun r => (values_advance named r).2.1) fun _ => .pure _

omit hc in
theorem rowAs_alone {named : Bool} (f : Tree → List Tree → α) {s : Tokens} (ht : AloneIn u (term named) s)
    (hts : ∀ r : Tokens, r.length < s.length → AloneIn u (terms named) r) :
    AloneIn u (rowAs named f) s :=
  .bind ht
    (fun x left hx =>
      .bind (hts left (term_consumes named s x left hx)) (fun _ _ _ => .pure _) fun _ => .pure _)
    fun _ => .bind (fun r => (values_advance named r).2.1) fun _ => .pure _

theorem term_alone {named : Bool} {s : Tokens}
    (ht : ∀ r : Tokens, r.length < s.length → AloneIn (close :: u) (term false) r)
    (hv : ∀ r : Tokens, r.length < s.length → AloneIn (close :: u) (value true) r) :
    AloneIn (close :: u) (term named) s := by
  cases s with
  | nil =>
    refine .neither (fun a rest h => ?_) fun a rest h => ?_
    · have hl := term_consumes named _ a _ h
      simp only [List.nil_append, List.length_append] at hl
      omega
    · rw [term_eq] at h
      contradiction
  | cons t rest =>
    have happend := argumentName?_append_close (u := u) hc named t rest
    cases hn : argumentName? named t rest with
    | some p =>
      obtain ⟨equals, left⟩ := p
      have hl : left.length < (t :: rest).length :=
        Nat.lt_succ_of_le (argumentName?_suffix hn).1.length_le
      have hname : AloneIn (close :: u) (namedArgument t.leaf equals) left :=
        .bind (ht left hl) (fun _ _ _ => .pure _) fun _ => .pure _
      rw [hn, Option.map_some] at happend
      exact hname.step (by rw [term_cons, hn]) (by rw [List.cons_append, term_cons, happend])
    | none =>
      rw [hn, Option.map_none] at happend
      by_cases hf : ∃ name, t.kind = .function name
      · obtain ⟨name, hk⟩ := hf
        have hcall := functionCall_alone (u := u) hc t.leaf fun r hr =>
          hv r (Nat.lt_succ_of_le hr)
        exact hcall.step (by rw [term_cons, hn, hk])
          (by rw [List.cons_append, term_cons, happend, hk])
      · have hf' : ∀ name, t.kind ≠ .function name := fun name hk => hf ⟨name, hk⟩
        intro a left
        rw [List.cons_append, term_plain hn hf', term_plain happend hf']
        split
        · simp only [Outcome.accepted.injEq, List.append_left_inj]
        · exact iff_of_false nofun nofun

theorem terms_alone {named : Bool} {s : Tokens}
    (ht : ∀ r : Tokens, r.length ≤ s.length → AloneIn (close :: u) (term named) r)
    (hts : ∀ r : Tokens, r.length < s.length → AloneIn (close :: u) (terms named) r) :
    AloneIn (close :: u) (terms named) s := by
  have hskip := skipBlank_append_close (u := u) hc s
  have row (f : Tree → List Tree → List Tree) {r : Tokens} (hr : r.length ≤ s.length) :
      AloneIn (close :: u) (rowAs named f) r :=
    rowAs_alone f (ht r hr) fun r' hr' => hts r' (Nat.lt_of_lt_of_le hr' hr)
  cases h : skipBlank s with
  | nil =>
    -- the bracket neither separates terms nor begins one
    rw [h, List.nil_append] at hskip
    refine .step (.pure [] (s := [])) (by rw [terms_eq, h]; rfl) ?_
    rw [terms_eq, hskip]
    simp only [hc]
    rfl
  | cons t rest =>
    have hl := (suffix_of_skipBlank h).length_le
    rw [h, List.cons_append] at hskip
    by_cases hk : isSeparator t.kind = true
    · have hp : AloneIn (close :: u) (do blank; rowAs named fun x more => t.leaf :: x :: more) rest := by
        refine .bind (.blank hc) (fun _ r hr => row _ ?_) fun _ => rowAs_advances named _
        cases hr
        exact Nat.le_trans (skipBlank_length_le rest) (Nat.le_of_succ_le hl)
      refine hp.step ?_ ?_
      · rw [terms_eq, h]
        simp only [hk, ↓reduceIte]
        rfl
      · rw [terms_eq, hskip]
        simp only [hk, ↓reduceIte]
        rfl
    · by_cases hk' : startsTerm t.kind = true
      · refine (row (fun x more => blankLeaf s ++ x :: more) hl).step ?_ ?_
        · rw [terms_eq, h]
          simp only [hk, hk', Bool.false_eq_true, ↓reduceIte]
          rfl
        · rw [terms_eq, hskip, blankLeaf_append (solid_of_skipBlank h).ne_nil]
          simp only [hk, hk', Bool.false_eq_true, ↓reduceIte, List.cons_append]
          rfl
      · refine .step (.pure [] (s := t :: rest)) ?_ ?_
        · rw [terms_eq, h]
          simp only [hk, hk', Bool.false_eq_true, ↓reduceIte]
          rfl
        · rw [terms_eq, hskip]
          simp only [hk, hk', Bool.false_eq_true, ↓reduceIte]
          rfl

/-- In front of a closing parenthesis a value is what it is alone. -/
theorem value_alone (named : Bool) (s : Tokens) : AloneIn (close :: u) (value named) s := by
  refine (values_induction (P := fun named => AloneIn (close :: u) (term named))
    (Q := fun named => AloneIn (close :: u) (terms named))
    (R := fun named => AloneIn (close :: u) (value named)) (fun _ _ => term_alone hc)
    (fun _ _ => terms_alone hc) (fun named s ht hts => ?_) named s).2.2
  have hrow := rowAs_alone (fun first more => Tree.node .value first.first (first :: more)) ht hts
  exact hrow.step (value_eq named s) (value_eq named _)

end Stylesheet.Grammar
