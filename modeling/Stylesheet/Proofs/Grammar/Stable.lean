import Mathlib.Data.List.TakeWhile
import Stylesheet.Proofs.Grammar.Progress

/-!
# Tokens behind what was read

A production that leaves a token which is not blank has not seen the end of its tokens: with more
tokens behind, it does the same (`StableAt`). Each production is followed step by step, as in its
definition, and every step keeps this (`StableAt.bind`). Where a production looks ahead past blanks,
it needs the token that is left, since at the end of the input it sees nothing there.
-/

namespace Stylesheet

namespace Tokens

/-- A token that is not blank is left. -/
def Solid (s : Tokens) : Prop := s.skipBlank ≠ []

variable {s r more : Tokens}

theorem Solid.skipBlank_append (h : s.Solid) (more : Tokens) :
    skipBlank (s ++ more) = skipBlank s ++ more := by
  have hne : (List.dropWhile isBlank s).isEmpty = false := by
    rw [List.isEmpty_eq_false_iff]
    exact h
  rw [skipBlank, List.dropWhile_append, hne]
  rfl

theorem not_solid_nil : ¬ Solid [] := fun h => h rfl

theorem Solid.ne_nil (h : s.Solid) : s ≠ [] := fun e => not_solid_nil (e ▸ h)

theorem Solid.of_suffix (h : r.Solid) (hs : r <:+ s) : s.Solid := by
  intro e
  obtain ⟨t, rfl⟩ := hs
  have hall := List.dropWhile_eq_nil_iff.1 e
  exact h (List.dropWhile_eq_nil_iff.2 fun u hu => hall u (List.mem_append_right t hu))

theorem Solid.skipBlank (h : s.skipBlank.Solid) : s.Solid := h.of_suffix (skipBlank_suffix s)

theorem solid_of_skipBlank {t : Placed} (h : s.skipBlank = t :: r) : s.Solid := by
  rw [Solid, h]
  exact List.cons_ne_nil t r

end Tokens

namespace Outcome

variable {α β : Type}

/-- The same with more tokens behind. -/
def extend (more : Tokens) : Outcome α → Outcome α
  | .accepted a rest => .accepted a (rest ++ more)
  | .rejected f rest => .rejected f (rest ++ more)

theorem extend_map (f : α → β) (o : Outcome α) (more : Tokens) :
    (o.map f).extend more = (o.extend more).map f := by
  cases o <;> rfl

end Outcome

namespace Grammar

open Production Tokens

/-- From `s`, a production does the same with more tokens behind, if what it leaves has a token that is
    not blank; and then its fault has a place. -/
structure StableAt {α : Type} (p : Production α) (s : Tokens) : Prop where
  suffix : (p s).rest <:+ s
  append : (p s).rest.Solid → ∀ more, p (s ++ more) = (p s).extend more
  placed : ∀ f rest, p s = .rejected f rest → rest.Solid → f.place.isSome = true

/-- From everywhere. -/
def Stable {α : Type} (p : Production α) : Prop := ∀ s, StableAt p s

/-- A cause that depends on the next token only. -/
def HeadOnly (cause : Tokens → Fault.Cause) : Prop :=
  ∀ t rest more, cause (t :: rest ++ more) = cause (t :: rest)

namespace StableAt

variable {α β : Type} {s : Tokens}

/-- Nothing is left but blanks. -/
theorem ofBlank {p : Production α} (hs : (p s).rest <:+ s) (h : ¬ (p s).rest.Solid) :
    StableAt p s where
  suffix := hs
  append hr := absurd hr h
  placed f rest e hr := by
    rw [e] at h
    exact absurd hr h

theorem ofNil {p : Production α} (h : (p s).rest = []) : StableAt p s :=
  ofBlank (h ▸ List.nil_suffix) (h ▸ not_solid_nil)

theorem pure (a : α) : StableAt (pure a : Production α) s where
  suffix := List.suffix_refl s
  append _ _ := rfl
  placed f rest e := by contradiction

theorem bind {p : Production α} {f : α → Production β} (hp : StableAt p s)
    (hf : ∀ a rest, p s = .accepted a rest → StableAt (f a) rest) : StableAt (p >>= f) s := by
  cases e : p s with
  | rejected fault rest =>
    have hb : (p >>= f) s = .rejected fault rest := by rw [bind_apply, e]
    have hs := hp.suffix
    rw [e] at hs
    refine ⟨hb ▸ hs, ?_, ?_⟩
    · intro h more
      rw [hb] at h ⊢
      have ha := hp.append (e ▸ h) more
      rw [bind_apply, ha, e]
      rfl
    · intro fault' rest' he
      rw [hb] at he
      cases he
      exact hp.placed fault rest e
  | accepted a rest =>
    have hb : (p >>= f) s = f a rest := by rw [bind_apply, e]
    have hs := hp.suffix
    rw [e] at hs
    have hf' := hf a rest e
    refine ⟨hb ▸ hf'.suffix.trans hs, ?_, ?_⟩
    · intro h more
      rw [hb] at h ⊢
      have hr : rest.Solid := h.of_suffix hf'.suffix
      have ha := hp.append (e ▸ hr) more
      rw [bind_apply, ha, e]
      exact hf'.append h more
    · intro fault rest' he
      rw [hb] at he
      exact hf'.placed fault rest' he

/-- A production that does what another one does from a later place. -/
theorem step {p q : Production α} {left : Tokens} (hp : StableAt p left) (hs : left <:+ s)
    (e : q s = p left) (e' : (p left).rest.Solid → ∀ more, q (s ++ more) = p (left ++ more)) :
    StableAt q s := by
  refine ⟨?_, ?_, ?_⟩
  · rw [e]
    exact hp.suffix.trans hs
  · intro h more
    rw [e] at h ⊢
    rw [e' h more, hp.append h more]
  · intro f rest he
    rw [e] at he
    exact hp.placed f rest he

theorem congr {p q : Production α} (hp : StableAt p s) (e : ∀ r, q r = p r) : StableAt q s :=
  hp.step (List.suffix_refl s) (e s) fun _ more => e (s ++ more)

/-- The first token decides which production this is. -/
theorem ofHead {p q : Production α} {t : Placed} {rest : Tokens} (hp : StableAt p (t :: rest))
    (e : ∀ r, q (t :: r) = p (t :: r)) : StableAt q (t :: rest) :=
  hp.step (List.suffix_refl _) (e rest) fun _ more => e (rest ++ more)

/-- The first token decides which production reads on behind it. -/
theorem ofTail {p q : Production α} {t : Placed} {rest : Tokens} (hp : StableAt p rest)
    (e : ∀ r, q (t :: r) = p r) : StableAt q (t :: rest) :=
  hp.step (List.suffix_cons t rest) (e rest) fun _ more => e (rest ++ more)

/-- What a production gives is made into something else. -/
theorem map {p : Production α} (hp : StableAt p s) (f : α → β) :
    StableAt (fun r => (p r).map f) s := by
  refine ⟨?_, ?_, ?_⟩
  · rw [Outcome.rest_map]
    exact hp.suffix
  · intro h more
    rw [Outcome.rest_map] at h
    rw [Outcome.extend_map, hp.append h more]
  · intro fault left he hs
    cases hr : p s with
    | accepted a r =>
      rw [hr] at he
      contradiction
    | rejected fault' r =>
      rw [hr] at he
      cases he
      exact hp.placed fault left hr hs

theorem take (p : TokenKind → Bool) {cause : Tokens → Fault.Cause} (hc : HeadOnly cause) :
    StableAt (take p cause) s := by
  cases s with
  | nil => exact ofNil rfl
  | cons t rest =>
    refine ⟨Advances.take p cause _, ?_, ?_⟩
    · intro _ more
      rw [List.cons_append, take_cons, take_cons, ← List.cons_append, hc]
      split <;> rfl
    · intro f left e _
      rw [take_cons] at e
      split at e
      · contradiction
      · cases e
        rfl

theorem take? (p : TokenKind → Bool) : StableAt (take? p) s := by
  cases s with
  | nil => exact ofNil rfl
  | cons t rest =>
    refine ⟨Advances.take? p _, ?_, ?_⟩
    · intro _ more
      rw [List.cons_append, take?_cons, take?_cons]
      split <;> rfl
    · intro f left e
      rw [take?_cons] at e
      split at e <;> contradiction

theorem blank : StableAt blank s where
  suffix := skipBlank_suffix s
  append h more := by
    have hs : s.Solid := h.of_suffix (skipBlank_suffix s)
    rw [blank_apply, blank_apply, hs.skipBlank_append]
    rfl
  placed f rest e := by contradiction

theorem reject {cause : Tokens → Fault.Cause} (hc : HeadOnly cause) :
    StableAt (reject cause : Production α) s := by
  cases s with
  | nil => exact ofNil rfl
  | cons t rest =>
    refine ⟨List.suffix_refl _, fun _ more => ?_, ?_⟩
    · rw [reject_apply, reject_apply, hc]
      rfl
    · intro f left e _
      cases e
      rfl

/-- Looking ahead does not tell whether more tokens follow. -/
theorem aheadAt {f : Tokens → Production α} (h : StableAt (f s) s)
    (hf : s ≠ [] → ∀ more, f (s ++ more) = f s) : StableAt (ahead >>= f) s := by
  refine ⟨h.suffix, ?_, h.placed⟩
  intro hs more
  have ha := h.append hs more
  change f (s ++ more) (s ++ more) = _
  rw [hf (hs.of_suffix h.suffix).ne_nil, ha]
  rfl

/-- Looking at the next token only. -/
theorem ahead {f : Tokens → Production α} (h : StableAt (f s) s)
    (hf : ∀ t rest more, f (t :: rest ++ more) = f (t :: rest)) : StableAt (ahead >>= f) s := by
  refine h.aheadAt fun hne more => ?_
  obtain ⟨t, rest, rfl⟩ := List.exists_cons_of_ne_nil hne
  exact hf t rest more

theorem ite {c : Prop} [Decidable c] {p q : Production α} (hp : StableAt p s)
    (hq : StableAt q s) : StableAt (if c then p else q) s := by
  split
  · exact hp
  · exact hq

end StableAt

/-! ## Values -/

theorem equalsSign?_append {s behind : Tokens} {e : Tree} (h : equalsSign? s = some (e, behind))
    (hb : behind.Solid) (more : Tokens) :
    equalsSign? (s ++ more) = some (e, behind ++ more) := by
  unfold equalsSign? at h
  split at h
  · rename_i t rest e'
    split at h
    · rename_i hk
      cases h
      rw [equalsSign?, (solid_of_skipBlank e').skipBlank_append, e', List.cons_append]
      simp only [hk, ↓reduceIte, hb.skipBlank.skipBlank_append]
    · contradiction
  · contradiction

theorem equalsSign?_append_none {s : Tokens} (h : equalsSign? s = none) (hs : s.Solid)
    (more : Tokens) : equalsSign? (s ++ more) = none := by
  rw [equalsSign?, hs.skipBlank_append]
  unfold equalsSign? at h
  cases e : skipBlank s with
  | nil => exact absurd e hs
  | cons t rest =>
    rw [e] at h
    dsimp only at h
    rw [List.cons_append]
    dsimp only
    split at h
    · contradiction
    · rename_i hk
      rw [if_neg hk]

theorem blankLeaf_append {s : Tokens} (h : s ≠ []) (more : Tokens) :
    blankLeaf (s ++ more) = blankLeaf s := by
  cases s with
  | nil => contradiction
  | cons t rest => rfl

theorem stableAt_functionCall (function : Tree) {s : Tokens}
    (hv : ∀ r : Tokens, r.length ≤ s.length → StableAt (value true) r) :
    StableAt (functionCall function) s := by
  apply StableAt.bind .blank
  intro _ r hr
  have hl : r.length ≤ s.length := by
    cases hr
    exact skipBlank_length_le s
  apply StableAt.bind (.take? _)
  intro close r' hr'
  have hl' : r'.length ≤ s.length :=
    Nat.le_trans (suffix_of_accepted (Advances.take? _) hr').length_le hl
  cases close with
  | some close => exact .pure _
  | none =>
    apply StableAt.bind (hv r' hl')
    intro arguments r'' _
    exact .bind .blank fun _ _ _ => .bind (.take _ fun _ _ _ => rfl) fun _ _ _ => .pure _

/-- A name with an equals sign behind it, if names may stand here. -/
def argumentName? (named : Bool) (t : Placed) (rest : Tokens) : Option (Tree × Tokens) :=
  if named && t.kind.isIdent then equalsSign? rest else none

theorem term_cons (named : Bool) (t : Placed) (rest : Tokens) :
    term named (t :: rest) = match argumentName? named t rest with
      | some (equals, behind) => namedArgument t.leaf equals behind
      | none => match t.kind with
        | .function _ => functionCall t.leaf rest
        | kind =>
          if startsTerm kind then .accepted (.node .term t.index [t.leaf]) rest
          else .rejected (Tokens.unexpected (t :: rest) "value") (t :: rest) :=
  term_eq named (t :: rest)

theorem argumentName?_suffix {named : Bool} {t : Placed} {rest behind : Tokens} {e : Tree}
    (h : argumentName? named t rest = some (e, behind)) :
    behind <:+ rest ∧ equalsSign? rest = some (e, behind) := by
  unfold argumentName? at h
  split at h
  · exact ⟨equalsSign?_suffix h, h⟩
  · contradiction

theorem argumentName?_append {named : Bool} {t : Placed} {rest behind : Tokens} {e : Tree}
    (h : argumentName? named t rest = some (e, behind)) (hb : behind.Solid) (more : Tokens) :
    argumentName? named t (rest ++ more) = some (e, behind ++ more) := by
  unfold argumentName? at h ⊢
  split at h
  · rename_i hi
    rw [if_pos hi]
    exact equalsSign?_append h hb more
  · contradiction

theorem argumentName?_append_none {named : Bool} {t : Placed} {rest : Tokens}
    (h : argumentName? named t rest = none) (hs : t.kind.isIdent = true → rest.Solid)
    (more : Tokens) : argumentName? named t (rest ++ more) = none := by
  unfold argumentName? at h ⊢
  split at h
  · rename_i hi
    rw [if_pos hi]
    exact equalsSign?_append_none h (hs (Bool.and_eq_true_iff.1 hi).2) more
  · rename_i hi
    rw [if_neg hi]

/-- A token that is no name and opens no call is a term by itself, or does not fit. -/
theorem term_plain {named : Bool} {t : Placed} {rest : Tokens}
    (hn : argumentName? named t rest = none) (hf : ∀ name, t.kind ≠ .function name) :
    term named (t :: rest) =
      if startsTerm t.kind then .accepted (.node .term t.index [t.leaf]) rest
      else .rejected (Tokens.unexpected (t :: rest) "value") (t :: rest) := by
  rw [term_cons, hn]
  dsimp only
  split
  · rename_i name hk
    exact absurd hk (hf name)
  · rfl

/-- A term that is no named argument. -/
theorem stableAt_plainTerm {named : Bool} {t : Placed} {rest : Tokens}
    (hn : argumentName? named t rest = none)
    (hv : ∀ r : Tokens, r.length ≤ rest.length → StableAt (value true) r) :
    StableAt (term named) (t :: rest) := by
  have hrest : rest <:+ t :: rest := List.suffix_cons t rest
  by_cases hf : ∃ name, t.kind = .function name
  · obtain ⟨name, hk⟩ := hf
    have hi : t.kind.isIdent ≠ true := by rw [hk]; exact Bool.false_ne_true
    refine (stableAt_functionCall t.leaf hv).step hrest ?_ fun _ more => ?_
    · rw [term_cons, hn, hk]
    · rw [List.cons_append, term_cons,
        argumentName?_append_none hn fun h => absurd h hi, hk]
  · have hf' : ∀ name, t.kind ≠ .function name := fun name hk => hf ⟨name, hk⟩
    by_cases hs : startsTerm t.kind = true
    · -- a name could be one of an argument if no other token followed
      have hleaf : StableAt (Pure.pure (.node .term t.index [t.leaf]) : Production Tree) rest :=
        .pure _
      refine hleaf.step hrest ?_ fun hsolid more => ?_
      · rw [term_plain hn hf', if_pos hs]
        rfl
      · rw [List.cons_append, term_plain (argumentName?_append_none hn (fun _ => hsolid) more) hf',
          if_pos hs]
        rfl
    · have hi : t.kind.isIdent ≠ true := by
        intro hi
        cases hk : t.kind <;> rw [hk] at hi hs <;> contradiction
      have hreject : StableAt (reject fun r => .unexpectedToken "value" r.found : Production Tree)
          (t :: rest) := .reject fun _ _ _ => rfl
      refine hreject.step (List.suffix_refl _) ?_ fun _ more => ?_
      · rw [term_plain hn hf', if_neg hs]
        rfl
      · rw [List.cons_append,
          term_plain (argumentName?_append_none hn (fun h => absurd h hi) more) hf', if_neg hs]
        rfl

theorem stableAt_term {named : Bool} {s : Tokens}
    (ht : ∀ r : Tokens, r.length < s.length → StableAt (term false) r)
    (hv : ∀ r : Tokens, r.length < s.length → StableAt (value true) r) :
    StableAt (term named) s := by
  cases s with
  | nil => exact .ofNil (by rw [term_eq]; rfl)
  | cons t rest =>
    cases hn : argumentName? named t rest with
    | none => exact stableAt_plainTerm hn fun r hr => hv r (Nat.lt_succ_of_le hr)
    | some p =>
      obtain ⟨equals, behind⟩ := p
      obtain ⟨hb, he⟩ := argumentName?_suffix hn
      have hl : behind.length < (t :: rest).length := Nat.lt_succ_of_le hb.length_le
      have hname : StableAt (namedArgument t.leaf equals) behind :=
        .bind (ht behind hl) fun _ _ _ => .pure _
      refine hname.step (hb.trans (List.suffix_cons t rest)) (by rw [term_cons, hn]) ?_
      intro hs more
      rw [List.cons_append, term_cons, argumentName?_append hn (hs.of_suffix hname.suffix)]

theorem stableAt_terms {named : Bool} {s : Tokens}
    (ht : ∀ r : Tokens, r.length ≤ s.length → StableAt (term named) r)
    (hts : ∀ r : Tokens, r.length < s.length → StableAt (terms named) r) :
    StableAt (terms named) s := by
  cases h : skipBlank s with
  | nil => exact .ofNil (by rw [terms_eq, h]; rfl)
  | cons t rest =>
    have hs := suffix_of_skipBlank h
    have hsolid := solid_of_skipBlank h
    have hl := hs.length_le
    rw [List.length_cons] at hl
    have happend (more : Tokens) : skipBlank (s ++ more) = t :: (rest ++ more) := by
      rw [hsolid.skipBlank_append, h, List.cons_append]
    have further (r : Tokens) (x : Tree) (left : Tokens) (f : Tree → List Tree → List Tree)
        (hr : r.length ≤ s.length) (hx : term named r = .accepted x left) :
        StableAt (do let more ← terms named; return f x more : Production (List Tree)) left :=
      .bind (hts left (Nat.lt_of_lt_of_le (term_consumes named r x left hx) hr)) fun _ _ _ => .pure _
    by_cases hk : isSeparator t.kind = true
    · have hp : StableAt (do
          blank
          let next ← term named
          let more ← terms named
          return t.leaf :: next :: more : Production (List Tree)) rest := by
        apply StableAt.bind .blank
        intro _ r hr
        have hr' : r.length ≤ s.length := by
          cases hr
          exact Nat.le_trans (skipBlank_length_le rest) (by omega)
        exact .bind (ht r hr') fun x left hx =>
          further r x left (fun x more => t.leaf :: x :: more) hr' hx
      refine hp.step ((List.suffix_cons t rest).trans hs) ?_ fun _ more => ?_
      · rw [terms_eq, h]
        simp only [hk, ↓reduceIte]
      · rw [terms_eq, happend]
        simp only [hk, ↓reduceIte]
    · by_cases hk' : startsTerm t.kind = true
      · have hp : StableAt (do
            let next ← term named
            let more ← terms named
            return blankLeaf s ++ next :: more : Production (List Tree)) (t :: rest) :=
          .bind (ht _ hs.length_le) fun x left hx =>
            further (t :: rest) x left (fun x more => blankLeaf s ++ x :: more) hs.length_le hx
        refine hp.step hs ?_ fun _ more => ?_
        · rw [terms_eq, h]
          simp only [hk, hk', Bool.false_eq_true, ↓reduceIte]
        · rw [terms_eq, happend, blankLeaf_append hsolid.ne_nil]
          simp only [hk, hk', Bool.false_eq_true, ↓reduceIte, List.cons_append]
      · have hp : StableAt (Pure.pure [] : Production (List Tree)) (t :: rest) := .pure _
        refine hp.step hs ?_ fun _ more => ?_
        · rw [terms_eq, h]
          simp only [hk, hk', Bool.false_eq_true, ↓reduceIte]
          rfl
        · rw [terms_eq, happend]
          simp only [hk, hk', Bool.false_eq_true, ↓reduceIte]
          rfl

theorem stableAt_value {named : Bool} {s : Tokens} (ht : StableAt (term named) s)
    (hts : ∀ r : Tokens, r.length < s.length → StableAt (terms named) r) :
    StableAt (value named) s := by
  apply StableAt.congr _ (value_eq named)
  apply StableAt.bind ht
  intro x left hx
  exact .bind (hts left (term_consumes named s x left hx)) fun _ _ _ => .pure _

theorem Stable.value (named : Bool) : Stable (value named) := fun s =>
  (values_induction (P := fun named => StableAt (term named)) (Q := fun named => StableAt (terms named))
    (R := fun named => StableAt (Grammar.value named)) (fun _ _ => stableAt_term)
    (fun _ _ => stableAt_terms) (fun _ _ => stableAt_value) named s).2.2

end Grammar

end Stylesheet
