import Stylesheet.Cursor.Statement
import Stylesheet.Proofs.Cursor.Value

/-!
# Skips and declarations through a cursor

What does not fit is skipped in rounds of one kind (`skipRounds`), and a block goes on behind it.
-/

namespace Stylesheet.Cursor

open Grammar Production

variable {i : Input} {t : Placed} {s rest : Tokens} {ps : List Problem}

/-! ## Skips -/

section

variable {α : Type} {stops : Nat → TokenKind → Bool} {last : List Tree → α}
  {next : List Tree → Nat → TokenKind → Step (List Tree × Nat) α}

/-- A round of a skip. -/
def skipStep (stops : Nat → TokenKind → Bool) (last : List Tree → α)
    (next : List Tree → Nat → TokenKind → Step (List Tree × Nat) α) :
    List Tree × Nat → Tokens → Parsed (Step (List Tree × Nat) α)
  | (skipped, depth), s =>
    match s with
    | [] => ⟨.done (last skipped), [], []⟩
    | t :: rest =>
      if stops depth t.kind then ⟨.done (last skipped), [], t :: rest⟩
      else ⟨next (skipped ++ [t.leaf]) depth t.kind, [], rest⟩

theorem skipRounds (i : Input) (stops : Nat → TokenKind → Bool) (last : List Tree → α)
    (next : List Tree → Nat → TokenKind → Step (List Tree × Nat) α) :
    Rounds i (skipRound stops last next) (skipStep stops last next) where
  gives := by
    rintro ⟨skipped, depth⟩ s ps
    apply Gives.of_leaves
    intro hs
    apply Gives.get
    rw [atEof_before hs]
    cases s with
    | nil => exact .pure _
    | cons t rest =>
      rw [kind_cons hs, skipStep]
      by_cases hk : stops depth t.kind = true
      · rw [if_pos hk, if_pos (by simp [hk])]
        exact .pure _
      · rw [if_neg hk, if_neg (by simp [hk])]
        exact Gives.token.step (.pure _)
  shorter := by
    rintro ⟨skipped, depth⟩ s state h
    cases s with
    | nil => contradiction
    | cons t rest =>
      rw [skipStep] at h ⊢
      split
      · rename_i hk
        rw [if_pos hk] at h
        contradiction
      · exact Nat.lt_succ_self _

end

/-- What was skipped, behind what was skipped before. -/
def skippedBehind (skipped : List Tree) (s : Skipped) : Parsed (List Tree) :=
  ⟨skipped ++ s.leaves, [], s.rest⟩

theorem skippedBehind_cons (skipped : List Tree) (t : Placed) (s : Skipped) :
    skippedBehind skipped (s.cons t) = skippedBehind (skipped ++ [t.leaf]) s := by
  rw [skippedBehind, skippedBehind, List.append_assoc]
  rfl

theorem Gives.skipDeclaration (skipped : List Tree) (depth : Nat) :
    Gives i (loop skipDeclarationRound (skipped, depth)) s ps
      (skippedBehind skipped (Grammar.skipDeclaration depth s)) := by
  apply (skipRounds i closesAround id skipDeclarationNext).loop
    (p := fun state s => skippedBehind state.1 (Grammar.skipDeclaration state.2 s))
  rintro ⟨skipped, depth⟩ s
  cases s with
  | nil => simp [skipStep, Grammar.skipDeclaration, skippedBehind]
  | cons t rest =>
    simp only [skipStep, Grammar.skipDeclaration, closesAround, skipDeclarationNext, Bool.and_eq_true,
      beq_iff_eq]
    by_cases hb : depth = 0 ∧ t.kind = .closing .brace
    · rw [if_pos hb, if_pos hb]
      simp [skippedBehind]
    rw [if_neg hb, if_neg hb]
    by_cases hs : depth = 0 ∧ t.kind = .semicolon
    · rw [if_pos hs, if_pos hs]
      rfl
    rw [if_neg hs, if_neg hs]
    by_cases ho : t.kind.opens?.isSome = true
    · rw [if_pos ho, if_pos ho, skippedBehind_cons]
      rfl
    rw [if_neg ho, if_neg ho]
    by_cases hc : t.kind.isClosing = true
    · rw [if_pos hc, if_pos hc, skippedBehind_cons]
      rfl
    rw [if_neg hc, if_neg hc, skippedBehind_cons]
    rfl

theorem Gives.skipStatement (skipped : List Tree) (depth : Nat) :
    Gives i (loop skipStatementRound (skipped, depth)) s ps
      (skippedBehind skipped (Grammar.skipStatement depth s)) := by
  apply (skipRounds i closesAround id skipStatementNext).loop
    (p := fun state s => skippedBehind state.1 (Grammar.skipStatement state.2 s))
  rintro ⟨skipped, depth⟩ s
  cases s with
  | nil => simp [skipStep, Grammar.skipStatement, skippedBehind]
  | cons t rest =>
    simp only [skipStep, Grammar.skipStatement, closesAround, skipStatementNext, Bool.and_eq_true,
      beq_iff_eq]
    by_cases hb : depth = 0 ∧ t.kind = .closing .brace
    · rw [if_pos hb, if_pos hb]
      simp [skippedBehind]
    rw [if_neg hb, if_neg hb]
    by_cases hs : depth = 0 ∧ t.kind = .semicolon
    · rw [if_pos hs, if_pos hs]
      rfl
    rw [if_neg hs, if_neg hs]
    by_cases ho : t.kind = .opening .brace
    · rw [if_pos ho, if_pos ho, skippedBehind_cons]
      rfl
    rw [if_neg ho, if_neg ho]
    by_cases hc : t.kind = .closing .brace
    · rw [if_pos hc, if_pos hc]
      by_cases hd : depth ≤ 1
      · rw [if_pos hd, if_pos (by omega)]
        rfl
      · rw [if_neg hd, if_neg (by omega), skippedBehind_cons]
        rfl
    rw [if_neg hc, if_neg hc, skippedBehind_cons]
    rfl

/-- As `skippedBehind`, with whether the skip took the brace of the block around the rule. -/
def ruleSkipped (skipped : List Tree) (depth : Nat) (s : Tokens) : Parsed (List Tree × Bool) :=
  (skippedBehind skipped (Grammar.skipRule depth s)).map (·, depth == 0 && closesOuter s)

theorem Gives.skipRule (skipped : List Tree) (depth : Nat) :
    Gives i (loop skipRuleRound (skipped, depth)) s ps (ruleSkipped skipped depth s) := by
  apply (skipRounds i (fun _ _ => false) (·, false) skipRuleNext).loop
    (p := fun state s => ruleSkipped state.1 state.2 s)
  rintro ⟨skipped, depth⟩ s
  cases s with
  | nil => simp [skipStep, ruleSkipped, Grammar.skipRule, skippedBehind, Parsed.map, closesOuter]
  | cons t rest =>
    have hnext {d : Nat} (ho : (depth == 0 && closesOuter (t :: rest)) = (d == 0 && closesOuter rest)) :
        ((skippedBehind skipped ((Grammar.skipRule d rest).cons t)).map
          (·, depth == 0 && closesOuter (t :: rest))) = ruleSkipped (skipped ++ [t.leaf]) d rest := by
      rw [ho, skippedBehind_cons]
      rfl
    simp only [skipStep, Bool.false_eq_true, ↓reduceIte, skipRuleNext, beq_iff_eq]
    rw [ruleSkipped, Grammar.skipRule]
    by_cases ho : t.kind = .opening .brace
    · rw [if_pos ho, if_pos ho]
      exact hnext (by simp [closesOuter, ho])
    rw [if_neg ho, if_neg ho]
    by_cases hc : t.kind = .closing .brace
    · rw [if_pos hc, if_pos hc]
      by_cases hd : depth ≤ 1
      · rw [if_pos hd, if_pos hd]
        simp [skippedBehind, Parsed.map, closesOuter, hc]
      · rw [if_neg hd, if_neg hd]
        have h₁ : (depth == 0) = false := beq_eq_false_iff_ne.2 (by omega)
        have h₂ : (depth - 1 == 0) = false := beq_eq_false_iff_ne.2 (by omega)
        exact hnext (by rw [h₁, h₂, Bool.false_and, Bool.false_and])
    rw [if_neg hc, if_neg hc]
    exact hnext (by rw [closesOuter, if_neg ho, if_neg hc])

theorem Gives.recoverDeclaration : Gives i recoverDeclaration s ps
    ⟨.node .error (i.setting.position s) (Grammar.skipDeclaration 0 s).leaves, [],
      (Grammar.skipDeclaration 0 s).rest⟩ := by
  apply of_leaves
  intro hs
  rw [Cursor.recoverDeclaration]
  apply Gives.get
  rw [pos_before hs]
  exact Gives.step (Gives.skipDeclaration [] 0) (.pure _)

theorem Gives.recoverRule : Gives i recoverRule s ps
    ⟨(.node .error (i.setting.position s) (Grammar.skipRule 0 s).leaves, closesOuter s), [],
      (Grammar.skipRule 0 s).rest⟩ := by
  apply of_leaves
  intro hs
  rw [Cursor.recoverRule]
  apply Gives.get
  rw [pos_before hs]
  exact Gives.step (Gives.skipRule [] 0) (.pure _)

theorem Gives.strayToken (expected : String) :
    Gives i (strayToken expected) (t :: rest) ps (Grammar.strayToken i.setting expected t rest) := by
  apply of_leaves
  intro hs
  rw [Cursor.strayToken]
  apply Gives.get
  rw [unexpected_before hs]
  exact Gives.bind (u := ⟨Tree.node .error t.index [t.leaf], [], rest⟩) (Gives.report _)
    (Gives.step .token (.pure _))

/-! ## Declarations -/

theorem follows_valueAhead (ht : i.tokens[t.index]? = some t.token) :
    Follows i (refuse (fun c => c.atEof || endsEmpty c.kind) fun c =>
      ⟨.missingPropertyValue, c.spanOf t.index, [("property", c.textOf t.index)]⟩) s ps
      (valueAhead (some t) s) := by
  apply Follows.of_leaves
  intro hs
  have hr : Follows i (refuse (fun c => c.atEof || endsEmpty c.kind) fun c =>
      ⟨.missingPropertyValue, c.spanOf t.index, [("property", c.textOf t.index)]⟩) s ps _ :=
    Follows.refuse (e := ⟨.noPropertyValue t.token.text, some t.token.span⟩) fun _ => by
      rw [spanOf_before ht, textOf_before ht]
      rfl
  rw [atEof_before hs, startsWith_before (p := endsEmpty) rfl hs] at hr
  exact hr

theorem follows_declarationEnd : Follows i declarationEnd s ps (Grammar.declarationEnd s) := by
  rw [declarationEnd]
  apply Follows.bind (.optional rfl)
  intro semicolon r _
  cases semicolon with
  | some semicolon => exact .pure _
  | none =>
    apply Follows.of_leaves
    intro hs
    have hr : Follows i (refuse (fun c => !(c.atEof || c.kind == .closing .brace))
        fun c => ⟨.missingSemicolon, c.span, []⟩) r ps _ :=
      Follows.refuse fun hs => error_before hs ps .missingSemicolon
    rw [atEof_before hs, startsWith_before (p := (· == .closing .brace)) rfl hs] at hr
    dsimp only
    rw [bind_apply, ahead_apply]
    dsimp only
    cases he : (r.isEmpty || r.startsWith (· == .closing .brace)) with
    | true =>
      rw [he] at hr
      exact Gives.behind hr (.pure _)
    | false =>
      rw [he] at hr
      exact Gives.stops hr

theorem follows_declaration : Follows i declaration s ps (Grammar.declaration s) := by
  apply Follows.of_leaves
  intro hs
  rw [declaration, Grammar.declaration, bind_apply, ahead_apply]
  apply Follows.bind (.expect rfl fun hs => unexpected_before hs _ _)
  intro name r hname
  obtain ⟨t, rfl, rfl⟩ := take_eq_accepted hname
  apply Follows.bind .blanks
  intro _ r _
  apply Follows.bind (.expect rfl fun hs => unexpected_before hs _ _)
  intro colon r _
  apply Follows.bind .blanks
  intro _ r _
  apply Follows.bind (follows_valueAhead hs.getElem?_index)
  intro _ r _
  apply Follows.bind (follows_value i false r ps)
  intro value r _
  apply Follows.bind .blanks
  intro _ r hr
  cases hr
  apply Follows.bind (.optional rfl)
  intro important r hi
  apply Follows.bind
  · apply Follows.blanksBehind
    rintro rfl
    -- nothing was read behind the blanks in front of it, and none are left
    rw [take?_none hi]
    exact skipBlank_skipBlank _
  intro _ r _
  apply Follows.bind follows_declarationEnd
  intro semicolon r _
  exact .pure _

/-- A round of a block: its closing brace or the end of the input, a semicolon, or a declaration. -/
def declarationStep (st : Setting) (children : List Tree) (s : Tokens) :
    Parsed (Step (List Tree) (List Tree)) :=
  match s.skipBlank with
  | [] => ⟨.done children, [st.problem ⟨.missingCloseBrace, none⟩], []⟩
  | t :: rest =>
    if t.kind = .closing .brace then ⟨.done (children ++ [t.leaf]), [], rest⟩
    else if t.kind = .semicolon then ⟨.again (children ++ [t.leaf]), [], rest⟩
    else
      match Grammar.declaration (t :: rest) with
      | .accepted d left => ⟨.again (children ++ [d]), [], left⟩
      | .rejected f left =>
        ⟨.again (children ++
            [.node .error (st.position left) (Grammar.skipDeclaration 0 left).leaves]),
          [st.problem f], (Grammar.skipDeclaration 0 left).rest⟩

/-- The end of the input in front of a closing brace. -/
theorem Gives.reportOpen {α : Type} (a : α) (hs : i.Leaves []) :
    Gives i (do
      Cursor.report ⟨.missingCloseBrace, (i.before [] ps).span, []⟩
      return a) [] ps ⟨a, [i.setting.problem ⟨.missingCloseBrace, none⟩], []⟩ := by
  have he : (⟨.missingCloseBrace, (i.before [] ps).span, []⟩ : SyntaxError) =
      i.error ⟨.missingCloseBrace, none⟩ := error_before hs ps .missingCloseBrace
  rw [he]
  exact Gives.bind (u := ⟨a, [], []⟩) (Gives.report _) (.pure a)

theorem declarationRounds (i : Input) :
    Rounds i declarationRound (declarationStep i.setting) where
  gives children s ps := by
    apply Gives.pastBlanks
    intro hs
    rw [declarationStep]
    generalize Tokens.skipBlank s = r at hs
    cases r with
    | nil =>
      rw [kind_nil hs, atEof_before hs]
      exact Gives.reportOpen (Step.done children) hs
    | cons t rest =>
      rw [kind_cons hs, atEof_before hs]
      dsimp only
      by_cases hc : t.kind = .closing .brace
      · rw [if_pos hc, if_pos (beq_iff_eq.2 hc)]
        exact Gives.token.step (.pure _)
      rw [if_neg hc, if_neg (mt beq_iff_eq.1 hc), if_neg (by simp)]
      by_cases hsemi : t.kind = .semicolon
      · rw [if_pos hsemi, if_pos (beq_iff_eq.2 hsemi)]
        exact Gives.token.step (.pure _)
      rw [if_neg hsemi, if_neg (mt beq_iff_eq.1 hsemi)]
      have hd : Follows i declaration (t :: rest) ps (Grammar.declaration (t :: rest)) :=
        follows_declaration
      cases ho : Grammar.declaration (t :: rest) with
      | accepted d left =>
        rw [ho] at hd
        exact Gives.step hd (.pure _)
      | rejected f left =>
        rw [ho] at hd
        exact Gives.step hd (Gives.bind (u := ⟨_, [], _⟩) (Gives.report f)
          (Gives.step Gives.recoverDeclaration (.pure _)))
  shorter children s next h := by
    have hl := skipBlank_length_le s
    rw [declarationStep] at h ⊢
    cases hk : Tokens.skipBlank s with
    | nil =>
      rw [hk] at h
      contradiction
    | cons t rest =>
      rw [hk] at h hl
      rw [List.length_cons] at hl
      dsimp only at h ⊢
      by_cases hc : t.kind = .closing .brace
      · rw [if_pos hc] at h
        contradiction
      rw [if_neg hc]
      by_cases hsemi : t.kind = .semicolon
      · rw [if_pos hsemi]
        exact hl
      rw [if_neg hsemi]
      cases hd : Grammar.declaration (t :: rest) with
      | accepted d left =>
        exact Nat.lt_of_lt_of_le (declaration_consumes _ d left hd) hl
      | rejected f left =>
        exact Nat.lt_of_le_of_lt (skipDeclaration_rejected hd hc).length_le hl

theorem Gives.declarations (children : List Tree) :
    Gives i (loop declarationRound children) s ps
      ((Grammar.declarations i.setting s).map (children ++ ·)) := by
  apply (declarationRounds i).loop (p := fun children s => (Grammar.declarations i.setting s).map (children ++ ·))
  intro children s
  rw [declarations_eq, declarationStep]
  cases Tokens.skipBlank s with
  | nil => simp [Parsed.map]
  | cons t rest =>
    dsimp only
    by_cases hc : t.kind = .closing .brace
    · rw [if_pos hc, if_pos hc]
      rfl
    rw [if_neg hc, if_neg hc]
    by_cases hsemi : t.kind = .semicolon
    · rw [if_pos hsemi, if_pos hsemi]
      simp [Parsed.map, Parsed.report, Parsed.cons]
    rw [if_neg hsemi, if_neg hsemi]
    cases Grammar.declaration (t :: rest) with
    | accepted d left => simp [Parsed.map, Parsed.report, Parsed.cons]
    | rejected f left => simp [Parsed.map, Parsed.report, Parsed.cons]

theorem Gives.declarationBlock : Gives i declarationBlock (t :: rest) ps
    (Grammar.declarationBlock i.setting t.leaf rest) := by
  rw [Cursor.declarationBlock]
  apply Gives.step .token
  exact (Gives.declarations [t.leaf]).map (Tree.node .declarationBlock t.leaf.first)

end Stylesheet.Cursor
