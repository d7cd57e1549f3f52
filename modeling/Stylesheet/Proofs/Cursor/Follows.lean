import Mathlib.Data.List.DropRight
import Stylesheet.Proofs.Cursor.Basic

/-!
# What a cursor does with what is left

`Gives` says that a run does with the tokens ahead of a cursor what a reader of lists does with them,
and `Follows` that an attempt does what a production does. Both are closed under the ways to build a
program, so a program follows its production step by step. A loop does what `q` says of its rounds,
where these go on with less than there was (`Rounds`, `Attempts`).
-/

namespace Stylesheet.Cursor

open Grammar Production

variable {α β σ : Type} {i : Input} {t : Placed} {s rest : Tokens} {ps : List Problem}

scoped instance : LawfulMonad Production := by
  refine LawfulMonad.mk' Production ?_ (fun _ _ => rfl) ?_
  · intro α p
    funext s
    show (p >>= pure) s = p s
    rw [bind_apply]
    cases p s <;> rfl
  · intro α β γ p f g
    funext s
    show ((p >>= f) >>= g) s = (p >>= fun a => f a >>= g) s
    simp only [bind_apply]
    cases p s <;> rfl

theorem bind_pure_apply (p : Production α) (h : α → β) (s : Tokens) :
    (p >>= fun a => pure (h a)) s = (p s).map h := by
  rw [bind_apply]
  cases p s <;> rfl

/-- `take?` never stops. -/
theorem take?_accepts (p : TokenKind → Bool) (s : Tokens) : ∃ read rest, take? p s = .accepted read rest := by
  cases s with
  | nil => exact ⟨none, [], rfl⟩
  | cons t rest =>
    rw [take?_cons]
    split
    · exact ⟨_, _, rfl⟩
    · exact ⟨_, _, rfl⟩

theorem take_eq_accepted {p : TokenKind → Bool} {cause : Tokens → Fault.Cause} {a : Tree}
    (h : take p cause s = .accepted a rest) : ∃ t, s = t :: rest ∧ a = t.leaf := by
  cases s with
  | nil => contradiction
  | cons t left =>
    rw [take_cons] at h
    split at h <;> cases h
    exact ⟨t, rfl, rfl⟩

theorem take?_none {p : TokenKind → Bool} (h : take? p s = .accepted none rest) : rest = s := by
  cases s with
  | nil =>
    cases h
    rfl
  | cons t left =>
    rw [take?_cons] at h
    split at h <;> cases h
    rfl

/-- From the cursor in front of what is left, a run gives a result and stands in front of what the
    reader leaves. -/
def Gives (i : Input) (m : Run α) (s : Tokens) (ps : List Problem) (r : Parsed α) : Prop :=
  i.Leaves s → r.rest <:+ s ∧
    m.run (i.before s ps) = some (r.result, i.before r.rest (ps ++ r.problems))

namespace Gives

variable {m : Run α} {f : α → Run β} {r : Parsed α} {u : Parsed β} {a : α}

theorem of_leaves (h : i.Leaves s → Gives i m s ps r) : Gives i m s ps r := fun hs => h hs hs

theorem pure (a : α) : Gives i (pure a) s ps ⟨a, [], s⟩ := by
  intro _
  refine ⟨List.suffix_refl s, ?_⟩
  rw [List.append_nil]
  rfl

theorem bind (hm : Gives i m s ps r) (hf : Gives i (f r.result) r.rest (ps ++ r.problems) u) :
    Gives i (m >>= f) s ps (u.report r.problems) := by
  intro hs
  obtain ⟨h₁, e₁⟩ := hm hs
  obtain ⟨h₂, e₂⟩ := hf (hs.of_suffix h₁)
  refine ⟨h₂.trans h₁, ?_⟩
  rw [StateT.run_bind, e₁]
  show (f r.result).run (i.before r.rest (ps ++ r.problems)) = _
  rw [e₂, List.append_assoc]
  rfl

/-- A step without problems. -/
theorem step (hm : Gives i m s ps ⟨a, [], rest⟩) (hf : Gives i (f a) rest ps u) :
    Gives i (m >>= f) s ps u := by
  have h := hm.bind (f := f) (u := u) (by rwa [List.append_nil])
  exact h

/-- A run that may have found problems, and what is made of its result. -/
theorem returns {b : β} (hm : Gives i m s ps r) (hf : f r.result = Pure.pure b) :
    Gives i (m >>= f) s ps (r.map fun _ => b) := by
  have h := hm.bind (f := f) (u := ⟨b, [], r.rest⟩) (by rw [hf]; exact .pure b)
  simpa [Parsed.report, Parsed.map] using h

theorem map (h : α → β) (hm : Gives i m s ps r) : Gives i (do return h (← m)) s ps (r.map h) :=
  hm.returns rfl

theorem get {f : Cursor → Run α} (h : Gives i (f (i.before s ps)) s ps r) :
    Gives i (get >>= f) s ps r :=
  h

theorem bump : Gives i bump (t :: rest) ps ⟨t.index, [], rest⟩ := by
  intro hs
  refine ⟨List.suffix_cons t rest, ?_⟩
  rw [List.append_nil]
  exact bump_before hs ps

theorem token : Gives i token (t :: rest) ps ⟨t.leaf, [], rest⟩ := bump.step (.pure _)

theorem report (f : Fault) : Gives i (report (i.error f)) s ps ⟨(), [i.setting.problem f], s⟩ :=
  fun _ => ⟨List.suffix_refl s, rfl⟩

/-- The next token if it is of a kind. -/
theorem optional {p : TokenKind → Bool} (hp : p .eof = false) {read : Option Tree}
    (h : take? p s = .accepted read rest) : Gives i (optional p) s ps ⟨read, [], rest⟩ := by
  apply of_leaves
  intro hs
  apply get
  rw [startsWith_before hp hs]
  cases s with
  | nil =>
    cases h
    exact .pure none
  | cons t left =>
    rw [take?_cons] at h
    by_cases hk : p t.kind = true
    · rw [if_pos hk] at h
      cases h
      rw [if_pos (show Tokens.startsWith (t :: rest) p = true from hk)]
      exact token.step (.pure _)
    · rw [if_neg hk] at h
      cases h
      rw [if_neg (show ¬ Tokens.startsWith (t :: left) p = true from hk)]
      exact .pure none

end Gives

/-! ## Attempts -/

/-- What a production makes of its tokens, as an attempt gives it. -/
def parsed (i : Input) : Outcome α → Parsed (Except SyntaxError α)
  | .accepted a rest => ⟨.ok a, [], rest⟩
  | .rejected f rest => ⟨.error (i.error f), [], rest⟩

/-- Stops unless a token of a kind comes next, and takes nothing. -/
def facing (p : TokenKind → Bool) (cause : Tokens → Fault.Cause) : Production Unit := fun s =>
  if s.startsWith p then .accepted () s else .rejected (s.fault (cause s)) s

theorem facing_cons (p : TokenKind → Bool) (cause : Tokens → Fault.Cause) (t : Placed) (rest : Tokens) :
    facing p cause (t :: rest) =
      if p t.kind then .accepted () (t :: rest)
      else .rejected (Tokens.fault (t :: rest) (cause (t :: rest))) (t :: rest) :=
  rfl

theorem facing_advances (p : TokenKind → Bool) (cause : Tokens → Fault.Cause) :
    Advances (facing p cause) := by
  intro s
  rw [facing]
  split <;> exact List.suffix_refl s

theorem facing_eq_accepted {p : TokenKind → Bool} {cause : Tokens → Fault.Cause}
    (h : facing p cause s = .accepted () rest) : s = rest ∧ rest.startsWith p = true := by
  rw [facing] at h
  split at h <;> cases h
  exact ⟨rfl, ‹_›⟩

/-- A token that is there can be taken. -/
theorem facing_take (p : TokenKind → Bool) (cause : Tokens → Fault.Cause) (f : Tree → Production α) :
    (facing p cause >>= fun _ => take p cause >>= f) = take p cause >>= f := by
  funext s
  rw [bind_apply]
  cases s with
  | nil => rfl
  | cons t rest =>
    rw [facing_cons, bind_apply, take_cons]
    by_cases hk : p t.kind = true
    · rw [if_pos hk, if_pos hk]
      dsimp only
      rw [bind_apply, take_cons, if_pos hk]
    · rw [if_neg hk, if_neg hk]

/-- An attempt does what a production does. -/
def Follows (i : Input) (m : Attempt α) (s : Tokens) (ps : List Problem) (o : Outcome α) : Prop :=
  Gives i m.run s ps (parsed i o)

/-- What a run gives behind an attempt that succeeds. -/
theorem Gives.behind {m : Attempt α} {f : α → Attempt β} {a : α} {r : Parsed (Except SyntaxError β)}
    (hm : Follows i m s ps (.accepted a rest)) (hf : Gives i (f a).run rest ps r) :
    Gives i (m >>= f).run s ps r :=
  Gives.step hm hf

/-- An attempt that stops is left. -/
theorem Gives.stops {m : Attempt α} {f : α → Attempt β} {e : Fault}
    (hm : Follows i m s ps (.rejected e rest)) :
    Gives i (m >>= f).run s ps ⟨.error (i.error e), [], rest⟩ :=
  Gives.step hm (.pure _)

/-- A run as an attempt never stops. -/
theorem Gives.ok {m : Run α} {r : Parsed α} (hm : Gives i m s ps r) :
    Gives i (liftM m : Attempt α).run s ps ⟨.ok r.result, r.problems, r.rest⟩ := by
  intro hs
  obtain ⟨h₁, e₁⟩ := hm hs
  refine ⟨h₁, ?_⟩
  show (Except.ok <$> m : Run (Except SyntaxError α)).run (i.before s ps) = _
  rw [StateT.run_map, e₁]
  rfl

theorem Gives.look {f : Cursor → Attempt α} {r : Parsed (Except SyntaxError α)}
    (h : Gives i (f (i.before s ps)).run s ps r) : Gives i (MonadState.get >>= f).run s ps r :=
  h

/-- What an attempt gives behind a run, which may have found problems. -/
theorem Gives.lift {m : Run α} {f : α → Attempt β} {r : Parsed α} {u : Parsed (Except SyntaxError β)}
    (hm : Gives i m s ps r) (hf : Gives i (f r.result).run r.rest (ps ++ r.problems) u) :
    Gives i (liftM m >>= f).run s ps (u.report r.problems) :=
  Gives.bind hm.ok hf

theorem Gives.lift_map {m : Run α} {r : Parsed α} (h : α → β) (hm : Gives i m s ps r) :
    Gives i (do return h (← m) : Attempt β).run s ps (r.map fun a => .ok (h a)) := by
  have hb := Gives.lift (f := fun a => Pure.pure (h a)) hm (Gives.pure (Except.ok (h r.result)))
  simpa [Parsed.report, Parsed.map] using hb

namespace Follows

variable {m : Attempt α} {f : α → Attempt β} {p : Production α} {g : α → Production β} {o : Outcome β}
  {a : α}

theorem of_leaves {o : Outcome α} (h : i.Leaves s → Follows i m s ps o) : Follows i m s ps o :=
  Gives.of_leaves h

theorem pure (a : α) : Follows i (pure a) s ps (.accepted a s) := Gives.pure (Except.ok a)

theorem throw (e : Fault) : Follows i (throw (i.error e)) s ps (.rejected e s : Outcome α) :=
  Gives.pure (Except.error (i.error e))

theorem bind (hm : Follows i m s ps (p s))
    (hf : ∀ a rest, p s = .accepted a rest → Follows i (f a) rest ps (g a rest)) :
    Follows i (m >>= f) s ps ((p >>= g) s) := by
  rw [bind_apply]
  cases h : p s with
  | accepted a rest =>
    rw [h] at hm
    exact Gives.behind hm (hf a rest h)
  | rejected e rest =>
    rw [h] at hm
    exact Gives.stops hm

theorem map {o : Outcome α} (h : α → β) (hm : Follows i m s ps o) :
    Follows i (do return h (← m)) s ps (o.map h) := by
  cases o with
  | accepted a rest => exact Gives.behind hm (Gives.pure (Except.ok (h a)))
  | rejected e rest => exact Gives.stops hm

theorem map_eq {o : Outcome α} {u : Outcome β} (h : α → β) (hm : Follows i m s ps o)
    (e : o.map h = u) : Follows i (do return h (← m)) s ps u :=
  e ▸ hm.map h

/-- What is made of a result that is itself made of what was read. -/
theorem collect {γ : Type} {p : Production γ} {k : γ → α} (h : α → β)
    (hm : Follows i m s ps ((p >>= fun c => Pure.pure (k c)) s)) :
    Follows i (do return h (← m)) s ps ((p >>= fun c => Pure.pure (h (k c))) s) := by
  have hb := hm.bind (g := fun a => Pure.pure (h a)) fun a rest _ => .pure (h a)
  rwa [bind_assoc] at hb

/-- A step that takes what it takes whatever stands there. -/
theorem step {m : Run α} (hm : Gives i m s ps ⟨a, [], rest⟩) (hf : Follows i (f a) rest ps o) :
    Follows i (liftM m >>= f) s ps o := by
  have h := Gives.lift (f := f) (u := parsed i o) hm (by rwa [List.append_nil])
  exact h

theorem lift {m : Run α} (hm : Gives i m s ps ⟨a, [], rest⟩) :
    Follows i (liftM m) s ps (.accepted a rest) :=
  Gives.ok hm

theorem get {f : Cursor → Attempt α} {o : Outcome α} (h : Follows i (f (i.before s ps)) s ps o) :
    Follows i (get >>= f) s ps o :=
  h

theorem token_take {p : TokenKind → Bool} {cause : Tokens → Fault.Cause} (hk : p t.kind = true) :
    Follows i (liftM token) (t :: rest) ps (take p cause (t :: rest)) := by
  rw [take_cons, if_pos hk]
  exact .lift .token

theorem optional {p : TokenKind → Bool} (hp : p .eof = false) :
    Follows i (liftM (Cursor.optional p)) s ps (take? p s) := by
  obtain ⟨read, rest, h⟩ := take?_accepts p s
  rw [h]
  exact .lift (.optional hp h)

/-- A place that is refused. -/
theorem refuse {p : Cursor → Bool} {error : Cursor → SyntaxError} {e : Fault}
    (he : i.Leaves s → error (i.before s ps) = i.error e) :
    Follows i (refuse p error) s ps
      (if p (i.before s ps) then .rejected e s else .accepted () s) := by
  apply of_leaves
  intro hs
  apply get
  split
  · rw [he hs]
    exact .throw e
  · exact .pure ()

/-- A place that is not refused. -/
theorem allow {p : Cursor → Bool} {error : Cursor → SyntaxError} (h : p (i.before s ps) = false) :
    Follows i (Cursor.refuse p error) s ps (.accepted () s) := by
  apply get
  rw [h]
  exact .pure ()

/-- A place in front of a token of a kind. -/
theorem facing {p : TokenKind → Bool} {error : Cursor → SyntaxError} {cause : Tokens → Fault.Cause}
    (hp : p .eof = false) (he : i.Leaves s → error (i.before s ps) = i.error (s.fault (cause s))) :
    Follows i (Cursor.refuse (fun c => !p c.kind) error) s ps (Cursor.facing p cause s) := by
  apply of_leaves
  intro hs
  have hr := refuse (p := fun c => !p c.kind) he
  rw [startsWith_before hp hs] at hr
  rw [Cursor.facing]
  cases h : s.startsWith p with
  | true => rwa [h] at hr
  | false => rwa [h] at hr

/-- A token that has to be of a kind. -/
theorem expect {p : TokenKind → Bool} {error : Cursor → SyntaxError} {cause : Tokens → Fault.Cause}
    (hp : p .eof = false) (he : i.Leaves s → error (i.before s ps) = i.error (s.fault (cause s))) :
    Follows i (expect p error) s ps (take p cause s) := by
  apply of_leaves
  intro hs
  have hr := refuse (p := fun c => !p c.kind) he
  rw [startsWith_before hp hs] at hr
  cases s with
  | nil => exact Gives.stops hr
  | cons t rest =>
    rw [take_cons]
    cases hk : p t.kind with
    | true =>
      rw [if_neg (by simp [Tokens.startsWith, hk])] at hr
      exact Gives.behind hr (Gives.ok .token)
    | false =>
      rw [if_pos (by simp [Tokens.startsWith, hk])] at hr
      exact Gives.stops hr

end Follows

/-! ## Loops -/

theorem remaining_lt (h : i.Leaves s) (hl : rest.length < s.length) (ps qs : List Problem) :
    (i.before rest qs).remaining < (i.before s ps).remaining := by
  have hs := h.length_le
  have hstop : i.stop ≤ i.tokens.length := List.findIdx_le_length
  show i.tokens.length - (i.stop - rest.length) < i.tokens.length - (i.stop - s.length)
  omega

/-- What a loop does with what a round leaves, if `p` is what it does with anything else. -/
def behindRound (p : σ → Tokens → Parsed α) (r : Parsed (Step σ α)) : Parsed α :=
  (match r.result with
    | .again next => p next r.rest
    | .done result => ⟨result, [], r.rest⟩).report r.problems

@[simp] theorem behindRound_again (p : σ → Tokens → Parsed α) (next : σ) (problems : List Problem)
    (rest : Tokens) : behindRound p ⟨.again next, problems, rest⟩ = (p next rest).report problems :=
  rfl

@[simp] theorem behindRound_done (p : σ → Tokens → Parsed α) (result : α) (problems : List Problem)
    (rest : Tokens) : behindRound p ⟨.done result, problems, rest⟩ = ⟨result, problems, rest⟩ := by
  rw [behindRound, Parsed.report, List.append_nil]

/-- A loop does what its rounds do one behind the other, as long as these have a property which every
    round keeps, and go on only with less than there was. -/
theorem Gives.loop_of {round : σ → Run (Step σ α)} {q : σ → Tokens → Parsed (Step σ α)}
    {p : σ → Tokens → Parsed α} {I : σ → Tokens → Prop}
    (hq : ∀ state s ps, I state s → Gives i (round state) s ps (q state s))
    (hi : ∀ state s next, I state s → (q state s).result = .again next →
      I next (q state s).rest ∧ (q state s).rest.length < s.length)
    (he : ∀ state s, I state s → p state s = behindRound p (q state s))
    {state : σ} {s : Tokens} (h : I state s) (ps : List Problem) :
    Gives i (loop round state) s ps (p state s) := by
  generalize hn : s.length = n
  induction n using Nat.strongRecOn generalizing state s ps with
  | _ n ih =>
    intro hs
    obtain ⟨hsuffix, hround⟩ := hq state s ps h hs
    show _ ∧ loopFrom round state (i.before s ps) = _
    rw [he state s h, behindRound, loopFrom, hround]
    cases hr : (q state s).result with
    | done result =>
      refine ⟨hsuffix, ?_⟩
      rw [Parsed.report, List.append_nil]
    | again next =>
      obtain ⟨hnext, hl⟩ := hi state s next h hr
      obtain ⟨hrest, hrun⟩ := ih _ (hn ▸ hl) hnext (ps ++ (q state s).problems) rfl (hs.of_suffix hsuffix)
      refine ⟨hrest.trans hsuffix, ?_⟩
      dsimp only
      -- less is left, so the loop is not stuck behind this round
      rw [if_pos (remaining_lt hs hl _ _), Parsed.report, ← List.append_assoc]
      exact hrun

/-- The rounds of a loop do what `q` does with what is left, and go on only with less. -/
structure Rounds (i : Input) (round : σ → Run (Step σ α)) (q : σ → Tokens → Parsed (Step σ α)) :
    Prop where
  gives : ∀ state s ps, Gives i (round state) s ps (q state s)
  shorter : ∀ state s next, (q state s).result = .again next → (q state s).rest.length < s.length

theorem Rounds.loop {round : σ → Run (Step σ α)} {q : σ → Tokens → Parsed (Step σ α)}
    {p : σ → Tokens → Parsed α} (h : Rounds i round q)
    (he : ∀ state s, p state s = behindRound p (q state s))
    (state : σ) (s : Tokens) (ps : List Problem) : Gives i (loop round state) s ps (p state s) :=
  Gives.loop_of (I := fun _ _ => True) (fun state s ps _ => h.gives state s ps)
    (fun state s next _ hr => ⟨trivial, h.shorter state s next hr⟩) (fun state s _ => he state s) trivial ps

/-- What a round gives, in a loop that may stop. -/
def settled (i : Input) : Outcome (Step σ α) → Parsed (Step σ (Except SyntaxError α))
  | .accepted (.again next) rest => ⟨.again next, [], rest⟩
  | .accepted (.done result) rest => ⟨.done (.ok result), [], rest⟩
  | .rejected f rest => ⟨.done (.error (i.error f)), [], rest⟩

theorem Gives.settle {round : Attempt (Step σ α)} {o : Outcome (Step σ α)}
    (h : Follows i round s ps o) : Gives i (settle round) s ps (settled i o) := by
  cases o with
  | accepted step rest => cases step <;> exact Gives.step h (.pure _)
  | rejected f rest => exact Gives.step h (.pure _)

theorem settled_again {o : Outcome (Step σ α)} {next : σ} (h : (settled i o).result = .again next) :
    ∃ rest, o = .accepted (.again next) rest := by
  cases o with
  | accepted step rest =>
    cases step with
    | again state =>
      cases h
      exact ⟨rest, rfl⟩
    | done result => contradiction
  | rejected f rest => contradiction

/-- As `behindRound`, with rounds that may stop. -/
def behindAttempt (p : σ → Production α) : Outcome (Step σ α) → Outcome α
  | .accepted (.again next) rest => p next rest
  | .accepted (.done result) rest => .accepted result rest
  | .rejected f rest => .rejected f rest

@[simp] theorem behindAttempt_again (p : σ → Production α) (next : σ) (rest : Tokens) :
    behindAttempt p (.accepted (.again next) rest) = p next rest :=
  rfl

@[simp] theorem behindAttempt_done (p : σ → Production α) (result : α) (rest : Tokens) :
    behindAttempt p (.accepted (.done result) rest) = .accepted result rest :=
  rfl

@[simp] theorem behindAttempt_rejected (p : σ → Production α) (f : Fault) (rest : Tokens) :
    behindAttempt p (.rejected f rest) = .rejected f rest :=
  rfl

/-- As `Gives.loop_of`, with rounds that may stop. -/
theorem Follows.attempt_of {round : σ → Attempt (Step σ α)} {q : σ → Production (Step σ α)}
    {p : σ → Production α} {I : σ → Tokens → Prop}
    (hq : ∀ state s ps, I state s → Follows i (round state) s ps (q state s))
    (hi : ∀ state s next rest, I state s → q state s = .accepted (.again next) rest →
      I next rest ∧ rest.length < s.length)
    (he : ∀ state s, I state s → p state s = behindAttempt p (q state s))
    {state : σ} {s : Tokens} (h : I state s) (ps : List Problem) :
    Follows i (attempt round state) s ps (p state s) := by
  apply Gives.loop_of (p := fun state s => parsed i (p state s)) (I := I)
    (fun state s ps h => Gives.settle (hq state s ps h)) _ _ h ps
  · intro state s next h hr
    obtain ⟨rest, e⟩ := settled_again hr
    rw [e]
    exact hi state s next rest h e
  · intro state s h
    show parsed i (p state s) = _
    rw [he state s h]
    cases q state s with
    | accepted step rest => cases step <;> rfl
    | rejected f rest => rfl

/-- As `Rounds`, with rounds that may stop. -/
structure Attempts (i : Input) (round : σ → Attempt (Step σ α)) (q : σ → Production (Step σ α)) :
    Prop where
  follows : ∀ state s ps, Follows i (round state) s ps (q state s)
  shorter : ∀ state s next rest, q state s = .accepted (.again next) rest → rest.length < s.length

namespace Attempts

variable {round : σ → Attempt (Step σ α)} {q : σ → Production (Step σ α)} {p : σ → Production α}

theorem rounds (h : Attempts i round q) :
    Rounds i (fun state => settle (round state)) fun state s => settled i (q state s) where
  gives state s ps := .settle (h.follows state s ps)
  shorter state s next hr := by
    obtain ⟨rest, e⟩ := settled_again hr
    rw [e]
    exact h.shorter state s next rest e

theorem attempt (h : Attempts i round q)
    (he : ∀ state s, p state s = behindAttempt p (q state s))
    (state : σ) (s : Tokens) (ps : List Problem) :
    Follows i (Cursor.attempt round state) s ps (p state s) :=
  Follows.attempt_of (I := fun _ _ => True) (fun state s ps _ => h.follows state s ps)
    (fun state s next rest _ e => ⟨trivial, h.shorter state s next rest e⟩) (fun state s _ => he state s)
    trivial ps

end Attempts

/-! ## Whitespace -/

/-- The number of the first token if it is a blank. -/
def blankIndex? (s : Tokens) : Option Nat :=
  match s with
  | [] => none
  | t :: _ => if Tokens.isBlank t then some t.index else none

/-- A round of `skipBlanks`: past a blank, or it is over. -/
def blankStep (first : Option Nat) (s : Tokens) : Parsed (Step (Option Nat) (Option Nat)) :=
  match s with
  | [] => ⟨.done first, [], []⟩
  | t :: rest =>
    if Tokens.isBlank t then ⟨.again (first.or (some t.index)), [], rest⟩
    else ⟨.done first, [], t :: rest⟩

theorem blankRounds : Rounds i blankRound blankStep where
  gives first s ps := by
    apply Gives.of_leaves
    intro hs
    apply Gives.get
    cases s with
    | nil =>
      rw [kind_nil hs]
      exact .pure _
    | cons t rest =>
      rw [kind_cons hs, blankStep]
      by_cases hk : Tokens.isBlank t = true
      · rw [if_pos hk, if_pos (show (t.kind == .whitespace) = true from hk)]
        exact Gives.bump.step (.pure _)
      · rw [if_neg hk, if_neg (show ¬ (t.kind == .whitespace) = true from hk)]
        exact .pure _
  shorter first s next h := by
    cases s with
    | nil => contradiction
    | cons t rest =>
      rw [blankStep] at h ⊢
      split at h
      · rename_i hk
        rw [if_pos hk]
        exact Nat.lt_succ_self _
      · contradiction

theorem Gives.skipBlanks : Gives i skipBlanks s ps ⟨blankIndex? s, [], s.skipBlank⟩ := by
  have h := blankRounds.loop (i := i)
    (p := fun first s => ⟨first.or (blankIndex? s), [], s.skipBlank⟩) (fun first s => by
      cases s with
      | nil => cases first <;> rfl
      | cons t rest =>
        rw [blankStep, blankIndex?, Tokens.skipBlank, List.dropWhile_cons]
        split <;> cases first <;> rfl) none s ps
  rwa [Option.none_or] at h

theorem Gives.blanks : Gives i blanks s ps ⟨(), [], s.skipBlank⟩ := Gives.skipBlanks.step (.pure ())

/-- What a run does behind blanks. -/
theorem Gives.pastBlanks {f : Cursor → Run α} {r : Parsed α}
    (h : i.Leaves s.skipBlank → Gives i (f (i.before s.skipBlank ps)) s.skipBlank ps r) :
    Gives i (do
      Cursor.blanks
      let c ← MonadState.get
      f c) s ps r := by
  apply of_leaves
  intro hs
  exact Gives.blanks.step (.get (h (hs.of_suffix (Tokens.skipBlank_suffix s))))

theorem skipBlank_skipBlank (s : Tokens) : s.skipBlank.skipBlank = s.skipBlank :=
  List.dropWhile_idempotent _ _

theorem Follows.blanks : Follows i (liftM Cursor.blanks) s ps (blank s) := .lift .blanks

/-- Where nothing was read and no blank stands, there is none to go past. -/
theorem Follows.blanksBehind {read : Option Tree} (h : read = none → s.skipBlank = s) :
    Follows i (liftM (Cursor.blanksBehind read)) s ps (blank s) := by
  cases read with
  | some read => exact .blanks
  | none =>
    rw [blank_apply, h rfl]
    exact .lift (.pure ())

end Stylesheet.Cursor
