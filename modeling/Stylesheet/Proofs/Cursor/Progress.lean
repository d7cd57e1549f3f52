import Stylesheet.Proofs.Cursor.Statement

/-!
# Progress

From a place at or in front of the first `eof`, every round of every loop comes back, to a place at or
in front of it; and it goes on only from a later place than the one where it began. So each of the loops
comes to an end (`loops_end`).
-/

namespace Stylesheet.Cursor

open Grammar

variable {α σ : Type} {c d e : Cursor}

/-- A place where tokens are read: at the first `eof` or in front of it. -/
structure Ready (c : Cursor) : Prop where
  ends : EndsInEof c.tokens
  pos_le : c.pos ≤ c.stop

/-- Where reading may come to: a place in the same tokens, at or behind the one where it began, and not
    behind the first `eof`. -/
structure Reaches (c d : Cursor) : Prop where
  input : d.toInput = c.toInput
  pos_le : c.pos ≤ d.pos
  le_stop : d.pos ≤ c.stop

theorem Reaches.ready (h : Reaches c d) (hc : Ready c) : Ready d where
  ends := by
    rw [h.input]
    exact hc.ends
  pos_le := by
    rw [h.input]
    exact h.le_stop

theorem Reaches.trans (h : Reaches c d) (h' : Reaches d e) : Reaches c e where
  input := h'.input.trans h.input
  pos_le := Nat.le_trans h.pos_le h'.pos_le
  le_stop := by
    rw [← h.input]
    exact h'.le_stop

/-- A run that comes back. -/
def Returns (m : Run α) : Prop :=
  ∀ c, Ready c → ∃ a d, m.run c = some (a, d) ∧ Reaches c d

/-- Rounds that come back, and go on only from a later place. -/
def Progresses (round : σ → Run (Step σ α)) : Prop :=
  ∀ state c, Ready c → ∃ step d, (round state).run c = some (step, d) ∧ Reaches c d ∧
    ∀ next, step = .again next → c.pos < d.pos

/-- What a loop does behind a round. -/
def further (run : σ → Run α) : Step σ α → Run α
  | .again next => run next
  | .done result => return result

/-- The loop of rounds that make progress. It is a round and then the loop again, and it comes to an
    end. -/
structure LoopEnds (round : σ → Run (Step σ α)) : Prop where
  progresses : Progresses round
  unfolds : ∀ state c, Ready c →
    (loop round state).run c = (round state >>= further (loop round)).run c
  returns : ∀ state, Returns (loop round state)

/-- From a later place fewer tokens remain. -/
theorem Reaches.remaining_lt (h : Reaches c d) (hpos : c.pos < d.pos) : d.remaining < c.remaining := by
  have hle := h.le_stop
  have hstop : c.stop ≤ c.tokens.length := List.findIdx_le_length
  rw [remaining, remaining, h.input]
  omega

section

variable {round : σ → Run (Step σ α)}

/-- A loop whose rounds make progress is not stuck behind any of them. -/
theorem Progresses.loop_eq (h : Progresses round) (state : σ) (hc : Ready c) :
    (loop round state).run c = (round state >>= further (loop round)).run c := by
  obtain ⟨step, d, hround, hd, hnext⟩ := h state c hc
  show loopFrom round state c = _
  rw [loopFrom, StateT.run_bind, hround]
  cases step with
  | done result => rfl
  | again next =>
    dsimp only
    rw [if_pos (hd.remaining_lt (hnext next rfl))]
    rfl

/-- Each round takes a token from the finitely many in front of the first `eof`. -/
theorem Progresses.returns (h : Progresses round) (state : σ) : Returns (loop round state) := by
  intro c hc
  generalize hn : c.stop - c.pos = n
  induction n using Nat.strongRecOn generalizing state c with
  | _ n ih =>
    obtain ⟨step, d, hround, hd, hnext⟩ := h state c hc
    rw [h.loop_eq state hc, StateT.run_bind, hround]
    cases step with
    | done result => exact ⟨result, d, rfl, hd⟩
    | again next =>
      have hlt : d.stop - d.pos < n := by
        have hpos := hnext next rfl
        have hle := hd.le_stop
        have hstop : d.stop = c.stop := congrArg Input.stop hd.input
        omega
      obtain ⟨a, e, he, hreach⟩ := ih _ hlt next d (hd.ready hc) rfl
      exact ⟨a, e, he, hd.trans hreach⟩

theorem Progresses.loopEnds (h : Progresses round) : LoopEnds round :=
  ⟨h, fun state _ hc => h.loop_eq state hc, h.returns⟩

end

/-! ## The loops -/

/-- A cursor at such a place stands in front of what is left of its tokens. -/
theorem Ready.exists_before (h : Ready c) :
    ∃ s, c.toInput.Leaves s ∧ c.toInput.before s c.problems = c := by
  refine ⟨c.toInput.ahead.drop c.pos, ⟨h.ends, List.drop_suffix _ _⟩, ?_⟩
  have hpos : c.stop - (c.toInput.ahead.drop c.pos).length = c.pos := by
    have := h.pos_le
    rw [List.length_drop, Input.length_ahead]
    omega
  rw [Input.before, hpos]

theorem Rounds.progresses {round : σ → Run (Step σ α)} (h : ∀ i, ∃ q, Rounds i round q) :
    Progresses round := by
  intro state c hc
  obtain ⟨s, hs, e⟩ := hc.exists_before
  obtain ⟨q, hq⟩ := h c.toInput
  obtain ⟨hsuffix, hrun⟩ := hq.gives state s c.problems hs
  have hpos : c.stop - s.length = c.pos := congrArg Cursor.pos e
  have hlength := hsuffix.length_le
  have hle := hs.length_le
  rw [e] at hrun
  refine ⟨_, _, hrun, ⟨rfl, ?_, Nat.sub_le _ _⟩, ?_⟩
  · show c.pos ≤ c.stop - (q state s).rest.length
    omega
  · intro next hnext
    have hlt := hq.shorter state s next hnext
    show c.pos < c.stop - (q state s).rest.length
    omega

theorem Rounds.loopEnds {round : σ → Run (Step σ α)} (h : ∀ i, ∃ q, Rounds i round q) :
    LoopEnds round :=
  (Rounds.progresses h).loopEnds

/-- As `LoopEnds`, with rounds that may stop. -/
def AttemptEnds (round : σ → Attempt (Step σ α)) : Prop := LoopEnds fun state => settle (round state)

theorem Attempts.attemptEnds {round : σ → Attempt (Step σ α)} (h : ∀ i, ∃ q, Attempts i round q) :
    AttemptEnds round :=
  Rounds.loopEnds fun i => (h i).elim fun _ hq => ⟨_, hq.rounds⟩

/-- Reading a value is not stuck at a value in one of its calls, which begins behind the function. -/
theorem value_run_eq (named : Bool) (hc : Ready c) :
    (value named).run.run c = (valueOf value named).run.run c := by
  obtain ⟨s, hs, e⟩ := hc.exists_before
  have hn : FollowsBelow c.toInput value s.length := fun named r qs _ =>
    follows_value c.toInput named r qs
  rw [← e, (follows_value c.toInput named s c.problems hs).2, (follows_valueOf hn hs).2]

/-- The loops of the parser: whitespace, values, the arguments of pseudo-classes, the conditions of a
    compound, selectors and lists of them, media queries and lists of them, the three that skip, and
    those of declaration blocks, media blocks and stylesheets. A value in a call is read as any value. -/
structure LoopsEnd : Prop where
  blanks : LoopEnds blankRound
  values : ∀ named, AttemptEnds (valueRound value named)
  nestedValues : ∀ named c, Ready c → (value named).run.run c = (valueOf value named).run.run c
  arguments : AttemptEnds argumentRound
  conditions : AttemptEnds conditionRound
  selectors : AttemptEnds selectorRound
  selectorLists : AttemptEnds selectorListRound
  queries : AttemptEnds queryRound
  queryLists : AttemptEnds queryListRound
  skippedDeclarations : LoopEnds skipDeclarationRound
  skippedRules : LoopEnds skipRuleRound
  skippedStatements : LoopEnds skipStatementRound
  declarations : LoopEnds declarationRound
  mediaBlocks : LoopEnds mediaRound
  statements : LoopEnds statementRound

theorem loops_end : LoopsEnd where
  blanks := Rounds.loopEnds fun _ => ⟨_, blankRounds⟩
  values named := Attempts.attemptEnds fun i => ⟨_, valueRounds i named⟩
  nestedValues named _ hc := value_run_eq named hc
  arguments := Attempts.attemptEnds fun i => ⟨_, argumentRounds i⟩
  conditions := Attempts.attemptEnds fun i => ⟨_, conditionRounds i⟩
  selectors := Attempts.attemptEnds fun i => ⟨_, selectorRounds i⟩
  selectorLists := Attempts.attemptEnds fun i => ⟨_, selectorListRounds i⟩
  queries := Attempts.attemptEnds fun i => ⟨_, queryRounds i⟩
  queryLists := Attempts.attemptEnds fun i => ⟨_, queryListRounds i⟩
  skippedDeclarations := Rounds.loopEnds fun i => ⟨_, skipRounds i _ _ _⟩
  skippedRules := Rounds.loopEnds fun i => ⟨_, skipRounds i _ _ _⟩
  skippedStatements := Rounds.loopEnds fun i => ⟨_, skipRounds i _ _ _⟩
  declarations := Rounds.loopEnds fun i => ⟨_, declarationRounds i⟩
  mediaBlocks := Rounds.loopEnds fun i => ⟨_, mediaRounds i⟩
  statements := Rounds.loopEnds fun i => ⟨_, statementRounds i⟩

end Stylesheet.Cursor
