import Mathlib.Logic.Relation
import Stylesheet.Proofs.Grammar.Equations

/-!
# Progress

Every loop of the grammar goes on in rounds, and `Round` tells from which state to which. A round
leaves less than there was (`Round.shorter`), and what the loop leaves in the end is the same from the
next state as from this one (`Round.left_eq`). So a loop runs through finitely many rounds, to a state
that has no further one (`exists_run`).
-/

namespace Stylesheet.Grammar

open Production Relation

/-! ## What is left is an end of what was given -/

theorem rule_suffix (st : Setting) (s : Tokens) : (rule st s).rest <:+ s := by
  have hl := rulePrelude_advances s
  rw [rule]
  split
  · rename_i h
    rw [h] at hl
    exact (declarations_suffix st _).trans hl
  · rename_i h
    rw [h] at hl
    exact (skipRule_suffix _ 0).trans hl

theorem unknownAtRule_suffix (keyword : Placed) (rest : Tokens) :
    (unknownAtRule keyword rest).rest <:+ rest :=
  skipStatement_suffix rest 0

theorem mediaBlock_suffix (st : Setting) (s : Tokens) : (mediaBlock st s).rest <:+ s := by
  have hs := Tokens.skipBlank_suffix s
  fun_induction mediaBlock st s with
  | case1 => exact List.nil_suffix
  | case2 s _ t rest h =>
    rw [h] at hs
    exact (List.suffix_cons t rest).trans hs
  | case3 s _ t rest h _ _ _ p hp ih =>
    rw [h] at hs
    have hu : p.rest <:+ rest := unknownAtRule_suffix t rest
    exact (ih (Tokens.skipBlank_suffix _)).trans (hu.trans ((List.suffix_cons t rest).trans hs))
  | case4 s _ t rest h _ _ _ _ p hp ih =>
    rw [h] at hs
    exact (ih (Tokens.skipBlank_suffix _)).trans ((List.suffix_cons t rest).trans hs)
  | case5 s _ t rest h _ _ _ _ p hp =>
    rw [h] at hs
    exact (rule_suffix st (t :: rest)).trans hs
  | case6 s _ t rest h _ _ _ _ p hp _ ih =>
    rw [h] at hs
    exact (ih (Tokens.skipBlank_suffix _)).trans ((rule_suffix st (t :: rest)).trans hs)

theorem brokenAtRule_suffix (st : Setting) (keyword : Placed) (f : Fault) (rest : Tokens) :
    (brokenAtRule st keyword f rest).rest <:+ rest :=
  skipStatement_suffix rest 0

theorem atRule_suffix (st : Setting) (keyword : Placed) (name : String) (rest : Tokens) :
    (atRule st keyword name rest).rest <:+ rest := by
  have hn := namespaceContent_advances rest
  have hf := fontFaceBrace_advances rest
  have hm := (mediaPrelude_advances (Tokens.skipBlank rest)).trans (Tokens.skipBlank_suffix rest)
  unfold atRule
  split
  · split
    · rename_i h
      rw [h] at hn
      exact hn
    · rename_i h
      rw [h] at hn
      exact (brokenAtRule_suffix st keyword _ _).trans hn
  · split
    · split
      · rename_i h
        rw [h] at hf
        exact (declarations_suffix st _).trans hf
      · rename_i h
        rw [h] at hf
        exact (brokenAtRule_suffix st keyword _ _).trans hf
    · split
      · split
        · rename_i h
          rw [h] at hm
          exact (mediaBlock_suffix st _).trans hm
        · rename_i h
          rw [h] at hm
          exact (brokenAtRule_suffix st keyword _ _).trans hm
      · exact unknownAtRule_suffix keyword rest

/-- A broken rule that begins with a token loses it. -/
theorem rule_suffix_tail (st : Setting) (t : Placed) (rest : Tokens) :
    (rule st (t :: rest)).rest <:+ rest := by
  rcases List.suffix_cons_iff.1 (rule_suffix st (t :: rest)) with e | h
  · have hl : (rule st (t :: rest)).rest.length ≤ rest.length := rule_length
    rw [e, List.length_cons] at hl
    omega
  · exact h

theorem statement_suffix (st : Setting) (t : Placed) (rest : Tokens) :
    (statement st t rest).rest <:+ rest := by
  unfold statement
  split
  · exact atRule_suffix st t _ rest
  · split
    · exact List.suffix_refl _
    · exact rule_suffix_tail st t rest

/-! ## Rounds -/

/-- A loop of the grammar and the tokens in front of it: the statements, the two kinds of blocks, the
    lists and sequences, and what skips to a safe place. -/
inductive LoopState where
  | statements (s : Tokens)
  | mediaBlock (s : Tokens)
  | declarations (s : Tokens)
  | selectors (s : Tokens)
  | compounds (s : Tokens)
  | conditions (s : Tokens)
  | pseudoArgument (depth : Nat) (s : Tokens)
  | terms (named : Bool) (s : Tokens)
  | queries (s : Tokens)
  | features (s : Tokens)
  | skipDeclaration (depth : Nat) (s : Tokens)
  | skipRule (depth : Nat) (s : Tokens)
  | skipStatement (depth : Nat) (s : Tokens)

namespace LoopState

/-- Where the loop stands. -/
def tokens : LoopState → Tokens
  | .statements s | .mediaBlock s | .declarations s | .selectors s | .compounds s | .conditions s
  | .pseudoArgument _ s | .terms _ s | .queries s | .features s | .skipDeclaration _ s
  | .skipRule _ s | .skipStatement _ s => s

/-- What the loop leaves in the end. -/
def left (st : Setting) : LoopState → Tokens
  | .statements s => (Grammar.statements st s).rest
  | .mediaBlock s => (Grammar.mediaBlock st s).rest
  | .declarations s => (Grammar.declarations st s).rest
  | .selectors s => (selectorListTail s).rest
  | .compounds s => (selectorTail s).rest
  | .conditions s => (Grammar.conditions s).rest
  | .pseudoArgument depth s => (Grammar.pseudoArgument depth s).rest
  | .terms named s => (Grammar.terms named s).rest
  | .queries s => (furtherQueries s).rest
  | .features s => (furtherFeatures s).rest
  | .skipDeclaration depth s => (Grammar.skipDeclaration depth s).rest
  | .skipRule depth s => (Grammar.skipRule depth s).rest
  | .skipStatement depth s => (Grammar.skipStatement depth s).rest

end LoopState

/-- How deep it is behind a token, where all brackets count. -/
def bracketDepth (depth : Nat) (k : TokenKind) : Nat :=
  if k.opens?.isSome then depth + 1 else if k.isClosing then depth - 1 else depth

/-- How deep it is behind a token, where only braces count. -/
def braceDepth (depth : Nat) (k : TokenKind) : Nat :=
  if k = .opening .brace then depth + 1 else if k = .closing .brace then depth - 1 else depth

/-- One round of a loop. -/
inductive Round (st : Setting) : LoopState → LoopState → Prop
  | statement {s t rest} (h : Tokens.skipBlank s = t :: rest) :
      Round st (.statements s) (.statements (statement st t rest).rest)
  | mediaAtRule {s t rest} (h : Tokens.skipBlank s = t :: rest) (hk : (keyword? t.kind).isSome) :
      Round st (.mediaBlock s) (.mediaBlock (unknownAtRule t rest).rest)
  | mediaStray {s t rest} (h : Tokens.skipBlank s = t :: rest) (hk : t.kind = .semicolon) :
      Round st (.mediaBlock s) (.mediaBlock rest)
  | mediaRule {s t rest} (h : Tokens.skipBlank s = t :: rest) (hb : t.kind ≠ .closing .brace)
      (hk : keyword? t.kind = none) (hs : t.kind ≠ .semicolon)
      (hc : (rule st (t :: rest)).result.2 = false) :
      Round st (.mediaBlock s) (.mediaBlock (rule st (t :: rest)).rest)
  | semicolon {s t rest} (h : Tokens.skipBlank s = t :: rest) (hk : t.kind = .semicolon) :
      Round st (.declarations s) (.declarations rest)
  | declaration {s t rest d left} (h : Tokens.skipBlank s = t :: rest)
      (hd : declaration (t :: rest) = .accepted d left) :
      Round st (.declarations s) (.declarations left)
  | brokenDeclaration {s t rest f left} (h : Tokens.skipBlank s = t :: rest)
      (hb : t.kind ≠ .closing .brace) (hs : t.kind ≠ .semicolon)
      (hd : declaration (t :: rest) = .rejected f left) :
      Round st (.declarations s) (.declarations (skipDeclaration 0 left).rest)
  | selector {comma rest next left} (hk : comma.kind = .comma)
      (h : selector (Tokens.skipBlank rest) = .accepted next left) :
      Round st (.selectors (comma :: rest)) (.selectors left)
  | compound {s c between part left} (hc : combinator? s = .accepted (some c) between)
      (hp : compound between = .accepted part left) : Round st (.compounds s) (.compounds left)
  | condition {s c left} (hs : s.startsWith startsCondition = true)
      (h : condition s = .accepted c left) : Round st (.conditions s) (.conditions left)
  | argumentOpening {t rest depth} (h : t.kind.opens?.isSome) :
      Round st (.pseudoArgument depth (t :: rest)) (.pseudoArgument (depth + 1) rest)
  | argumentClosing {t rest depth} (h : t.kind = .closing .paren) :
      Round st (.pseudoArgument (depth + 1) (t :: rest)) (.pseudoArgument depth rest)
  | argumentToken {t rest depth} (ho : t.kind.opens? = none) (h : t.kind ≠ .closing .paren) :
      Round st (.pseudoArgument depth (t :: rest)) (.pseudoArgument depth rest)
  | separatedTerm {named s t rest next left} (h : Tokens.skipBlank s = t :: rest)
      (hs : isSeparator t.kind = true) (ht : term named (Tokens.skipBlank rest) = .accepted next left) :
      Round st (.terms named s) (.terms named left)
  | adjacentTerm {named s t rest next left} (h : Tokens.skipBlank s = t :: rest)
      (hs : startsTerm t.kind = true) (ht : term named (t :: rest) = .accepted next left) :
      Round st (.terms named s) (.terms named left)
  | query {comma rest next left} (hk : comma.kind = .comma)
      (h : mediaQuery rest = .accepted next left) :
      Round st (.queries (comma :: rest)) (.queries left)
  | feature {s feature left} (hs : (Tokens.skipBlank s).startsWith isAnd = true)
      (h : furtherFeature (Tokens.skipBlank s) = .accepted feature left) :
      Round st (.features s) (.features left)
  | skipDeclaration {t rest depth}
      (h : ¬ (depth = 0 ∧ (t.kind = .closing .brace ∨ t.kind = .semicolon))) :
      Round st (.skipDeclaration depth (t :: rest)) (.skipDeclaration (bracketDepth depth t.kind) rest)
  | skipRule {t rest depth} (h : ¬ (t.kind = .closing .brace ∧ depth ≤ 1)) :
      Round st (.skipRule depth (t :: rest)) (.skipRule (braceDepth depth t.kind) rest)
  | skipStatement {t rest depth} (h : ¬ (depth = 0 ∧ t.kind = .semicolon))
      (h' : ¬ (t.kind = .closing .brace ∧ depth ≤ 1)) :
      Round st (.skipStatement depth (t :: rest)) (.skipStatement (braceDepth depth t.kind) rest)

section

variable {st : Setting} {a b : LoopState}

theorem suffix_of_skipBlank {s : Tokens} {t : Placed} {rest : Tokens}
    (h : Tokens.skipBlank s = t :: rest) : t :: rest <:+ s :=
  h ▸ Tokens.skipBlank_suffix s

/-- What a production leaves when it accepts. -/
theorem suffix_of_accepted {α : Type} {p : Production α} (hp : Advances p) {s left : Tokens} {x : α}
    (h : p s = .accepted x left) : left <:+ s := by
  have ha := hp s
  rwa [h] at ha

theorem length_lt_of_suffix_tail {s left rest : Tokens} {t : Placed} (hl : left <:+ rest)
    (hs : t :: rest <:+ s) : left <:+ s ∧ left.length < s.length :=
  ⟨hl.trans ((List.suffix_cons t rest).trans hs), Nat.lt_of_le_of_lt hl.length_le hs.length_le⟩

/-- A round takes at least one token from the front. -/
theorem Round.shorter (h : Round st a b) :
    b.tokens <:+ a.tokens ∧ b.tokens.length < a.tokens.length := by
  cases h with
  | statement h => exact length_lt_of_suffix_tail (statement_suffix st _ _) (suffix_of_skipBlank h)
  | mediaAtRule h => exact length_lt_of_suffix_tail (unknownAtRule_suffix _ _) (suffix_of_skipBlank h)
  | mediaStray h => exact length_lt_of_suffix_tail (List.suffix_refl _) (suffix_of_skipBlank h)
  | mediaRule h => exact length_lt_of_suffix_tail (rule_suffix_tail st _ _) (suffix_of_skipBlank h)
  | semicolon h => exact length_lt_of_suffix_tail (List.suffix_refl _) (suffix_of_skipBlank h)
  | declaration h hd =>
    have hs := suffix_of_skipBlank h
    exact ⟨(suffix_of_accepted declaration_advances hd).trans hs,
      Nat.lt_of_lt_of_le (declaration_consumes _ _ _ hd) hs.length_le⟩
  | brokenDeclaration h hb _ hd =>
    exact length_lt_of_suffix_tail (skipDeclaration_rejected hd hb) (suffix_of_skipBlank h)
  | @selector comma rest _ left _ h =>
    exact length_lt_of_suffix_tail
      ((suffix_of_accepted selector_advances h).trans (Tokens.skipBlank_suffix rest))
      (List.suffix_refl (comma :: rest))
  | compound hc hp =>
    have hs := suffix_of_accepted combinator?_advances hc
    exact ⟨(suffix_of_accepted compound_advances hp).trans hs,
      Nat.lt_of_lt_of_le (compound_consumes _ _ _ hp) hs.length_le⟩
  | condition _ h => exact ⟨suffix_of_accepted condition_advances h, condition_consumes _ _ _ h⟩
  | argumentOpening | argumentClosing | argumentToken | skipDeclaration | skipRule
  | skipStatement => exact length_lt_of_suffix_tail (List.suffix_refl _) (List.suffix_refl _)
  | @separatedTerm named _ _ rest _ _ h _ ht =>
    exact length_lt_of_suffix_tail
      ((suffix_of_accepted (term_advances named) ht).trans (Tokens.skipBlank_suffix rest))
      (suffix_of_skipBlank h)
  | @adjacentTerm named _ _ _ _ _ h _ ht =>
    have hs := suffix_of_skipBlank h
    exact ⟨(suffix_of_accepted (term_advances named) ht).trans hs,
      Nat.lt_of_lt_of_le (term_consumes named _ _ _ ht) hs.length_le⟩
  | @query comma rest _ _ _ h =>
    exact length_lt_of_suffix_tail (suffix_of_accepted mediaQuery_advances h)
      (List.suffix_refl (comma :: rest))
  | @feature s _ _ _ h =>
    have hs := Tokens.skipBlank_suffix s
    exact ⟨(suffix_of_accepted furtherFeature_advances h).trans hs,
      Nat.lt_of_lt_of_le (furtherFeature_consumes _ _ _ h) hs.length_le⟩

/-- A declaration begins with its name. -/
theorem declaration_isIdent {t : Placed} {rest left : Tokens} {d : Tree}
    (h : declaration (t :: rest) = .accepted d left) : t.kind.isIdent = true := by
  by_cases hn : t.kind.isIdent = true
  · exact hn
  · simp only [Grammar.declaration, bind_apply, ahead_apply, take_cons, if_neg hn] at h
    contradiction

theorem terms_rest_separated {named : Bool} {s rest left : Tokens} {t : Placed} {next : Tree}
    (h : Tokens.skipBlank s = t :: rest) (hs : isSeparator t.kind = true)
    (ht : term named (Tokens.skipBlank rest) = .accepted next left) :
    (terms named s).rest = (terms named left).rest := by
  rw [terms_eq, h]
  simp only [hs, ↓reduceIte, bind_apply, blank_apply, ht]
  cases terms named left <;> rfl

theorem terms_rest_adjacent {named : Bool} {s rest left : Tokens} {t : Placed} {next : Tree}
    (h : Tokens.skipBlank s = t :: rest) (hs : startsTerm t.kind = true)
    (ht : term named (t :: rest) = .accepted next left) :
    (terms named s).rest = (terms named left).rest := by
  have hn : isSeparator t.kind = false := by
    cases hk : t.kind <;> rw [hk] at hs <;> first | rfl | contradiction
  rw [terms_eq, h]
  simp only [hn, hs, Bool.false_eq_true, ↓reduceIte, bind_apply, ht]
  cases terms named left <;> rfl

theorem skipDeclaration_rest {t : Placed} {depth : Nat} (rest : Tokens)
    (h : ¬ (depth = 0 ∧ (t.kind = .closing .brace ∨ t.kind = .semicolon))) :
    (skipDeclaration depth (t :: rest)).rest =
      (skipDeclaration (bracketDepth depth t.kind) rest).rest := by
  rw [skipDeclaration, if_neg fun e => h ⟨e.1, Or.inl e.2⟩, if_neg fun e => h ⟨e.1, Or.inr e.2⟩,
    bracketDepth]
  split
  · rfl
  · split <;> rfl

theorem skipRule_rest {t : Placed} {depth : Nat} (rest : Tokens)
    (h : ¬ (t.kind = .closing .brace ∧ depth ≤ 1)) :
    (skipRule depth (t :: rest)).rest = (skipRule (braceDepth depth t.kind) rest).rest := by
  rw [skipRule, braceDepth]
  split
  · rfl
  · split
    · rename_i hk
      rw [if_neg fun e => h ⟨hk, e⟩]
      rfl
    · rfl

theorem skipStatement_rest {t : Placed} {depth : Nat} (rest : Tokens)
    (h : ¬ (depth = 0 ∧ t.kind = .semicolon)) (h' : ¬ (t.kind = .closing .brace ∧ depth ≤ 1)) :
    (skipStatement depth (t :: rest)).rest =
      (skipStatement (braceDepth depth t.kind) rest).rest := by
  rw [skipStatement, if_neg fun e => h' ⟨e.2, by omega⟩, if_neg h, braceDepth]
  split
  · rfl
  · split
    · rename_i hk
      rw [if_neg fun e => h' ⟨hk, e⟩]
      rfl
    · rfl

/-- A loop leaves the same from one state as from the next. -/
theorem Round.left_eq (h : Round st a b) : a.left st = b.left st := by
  cases h with
  | statement h =>
    rw [LoopState.left, statements_eq, h]
    rfl
  | @mediaAtRule s t rest h hk =>
    have hb : t.kind ≠ .closing .brace := fun e => by rw [e] at hk; contradiction
    rw [LoopState.left, mediaBlock_eq, h]
    simp only [hb, hk, ↓reduceIte]
    rfl
  | mediaStray h hk =>
    rw [LoopState.left, mediaBlock_eq, h]
    simp only [hk, keyword?]
    rfl
  | mediaRule h hb hk hs hc =>
    rw [LoopState.left, mediaBlock_eq, h]
    simp only [hb, hk, hs, hc]
    rfl
  | semicolon h hk =>
    rw [LoopState.left, declarations_eq, h]
    simp only [hk]
    rfl
  | @declaration s t rest d left h hd =>
    have hi := declaration_isIdent hd
    have hb : t.kind ≠ .closing .brace := fun e => by rw [e] at hi; contradiction
    have hs : t.kind ≠ .semicolon := fun e => by rw [e] at hi; contradiction
    rw [LoopState.left, declarations_eq, h]
    simp only [hb, hs, hd]
    rfl
  | brokenDeclaration h hb hs hd =>
    rw [LoopState.left, declarations_eq, h]
    simp only [hb, hs, hd]
    rfl
  | selector hk h =>
    rw [LoopState.left, selectorListTail_cons, if_pos hk, h]
    exact Outcome.rest_map _ _
  | compound hc hp =>
    rw [LoopState.left, selectorTail_eq, hc]
    simp only [hp]
    exact Outcome.rest_map _ _
  | condition hs h =>
    rw [LoopState.left, conditions_eq, if_pos hs, h]
    exact Outcome.rest_map _ _
  | argumentOpening h =>
    rw [LoopState.left, pseudoArgument, if_pos h]
    exact Outcome.rest_map _ _
  | argumentClosing h =>
    rw [LoopState.left, pseudoArgument, h]
    exact Outcome.rest_map _ _
  | argumentToken ho h =>
    rw [LoopState.left, pseudoArgument, ho, if_neg h]
    exact Outcome.rest_map _ _
  | separatedTerm h hs ht => exact terms_rest_separated h hs ht
  | adjacentTerm h hs ht => exact terms_rest_adjacent h hs ht
  | query hk h =>
    rw [LoopState.left, furtherQueries_cons, if_pos hk, h]
    exact Outcome.rest_map _ _
  | feature hs h =>
    rw [LoopState.left, furtherFeatures_eq, if_pos hs, h]
    exact Outcome.rest_map _ _
  | skipDeclaration h => exact skipDeclaration_rest _ h
  | skipRule h => exact skipRule_rest _ h
  | skipStatement h h' => exact skipStatement_rest _ h h'

/-- There is no endless run of rounds. -/
theorem Round.wellFounded (st : Setting) : WellFounded fun b a => Round st a b :=
  Subrelation.wf (fun h => h.shorter.2) (measure fun a : LoopState => a.tokens.length).wf

/-- A loop runs through rounds to a state without a further one, and what it leaves there is what it
    leaves altogether. -/
theorem exists_run (st : Setting) (a : LoopState) :
    ∃ last, ReflTransGen (Round st) a last ∧ (∀ next, ¬ Round st last next) ∧
      last.left st = a.left st := by
  induction a using (Round.wellFounded st).induction with
  | _ a ih =>
    by_cases h : ∃ b, Round st a b
    · obtain ⟨b, hb⟩ := h
      obtain ⟨last, hrun, hlast, hleft⟩ := ih b hb
      exact ⟨last, .head hb hrun, hlast, hleft.trans hb.left_eq.symm⟩
    · exact ⟨a, .refl, fun next hn => h ⟨next, hn⟩, rfl⟩

end

end Stylesheet.Grammar
