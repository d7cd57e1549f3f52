import Stylesheet.Cursor.Value
import Stylesheet.Proofs.Cursor.Follows
import Stylesheet.Proofs.Grammar.First

/-!
# Values through a cursor

A value with calls in it has further values in these, with less left than where it began. So what reads
those is taken to follow its production wherever there is less (`FollowsBelow`), and the induction on
what is left comes last (`follows_value`).
-/

namespace Stylesheet.Cursor

open Grammar Production

variable {i : Input} {t : Placed} {s rest : Tokens} {ps : List Problem}

/-- What stands between two terms if another term is to come, and what is left behind it. -/
def separates (s : Tokens) : Option (List Tree) × Tokens :=
  match s.skipBlank with
  | [] => (none, [])
  | t :: rest =>
    if isSeparator t.kind then (some [t.leaf], Tokens.skipBlank rest)
    else if startsTerm t.kind then (some (blankLeaf s), t :: rest)
    else (none, t :: rest)

theorem blankLeaf_eq (s : Tokens) : ((blankIndex? s).map Tree.leaf).toList = blankLeaf s := by
  cases s with
  | nil => rfl
  | cons t rest =>
    rw [blankIndex?, blankLeaf]
    split <;> rfl

theorem Gives.separator : Gives i separator s ps ⟨(separates s).1, [], (separates s).2⟩ := by
  apply of_leaves
  intro hs
  have hb := hs.of_suffix (Tokens.skipBlank_suffix s)
  apply Gives.skipBlanks.step
  apply Gives.get
  rw [separates]
  cases hk : Tokens.skipBlank s with
  | nil =>
    rw [hk] at hb
    rw [kind_nil hb]
    exact .pure none
  | cons t rest =>
    rw [hk] at hb
    rw [kind_cons hb]
    dsimp only
    split
    · exact token.step (Gives.blanks.step (.pure _))
    · split
      · rw [blankLeaf_eq]
        exact .pure _
      · exact .pure none

/-- Whether an equals sign stands behind a name. -/
theorem nextKind?_equals (h : i.Leaves (t :: rest)) (ps : List Problem) :
    ((i.before (t :: rest) ps).nextKind? == some (.comparison .equals)) = (equalsSign? rest).isSome := by
  rw [nextKind?_before h, equalsSign?]
  cases Tokens.skipBlank rest with
  | nil => rfl
  | cons u more =>
    show (some u.kind == some (.comparison .equals)) = _
    dsimp only
    by_cases hk : u.kind = .comparison .equals
    · rw [if_pos hk, hk]
      rfl
    · rw [if_neg hk]
      exact beq_eq_false_iff_ne.2 fun e => hk (Option.some.inj e)

/-! ## Terms -/

/-- What reads nested values follows the production where fewer than so many tokens are left. -/
def FollowsBelow (i : Input) (nested : Bool → Attempt Tree) (size : Nat) : Prop :=
  ∀ named (r : Tokens) ps, r.length < size → Follows i (nested named) r ps (Grammar.value named r)

theorem FollowsBelow.mono {nested : Bool → Attempt Tree} {m n : Nat} (h : FollowsBelow i nested n)
    (hm : m ≤ n) : FollowsBelow i nested m :=
  fun named r ps hr => h named r ps (Nat.lt_of_lt_of_le hr hm)

variable {nested : Bool → Attempt Tree} {named : Bool}

theorem follows_functionCall (hn : FollowsBelow i nested (t :: rest).length) :
    Follows i (functionCall nested) (t :: rest) ps (Grammar.functionCall t.leaf rest) := by
  rw [functionCall, functionCall_eq]
  apply Follows.step .token
  apply Follows.bind .blanks
  intro _ r hr
  cases hr
  apply Follows.of_leaves
  intro hs
  apply Follows.get
  rw [startsWith_before (p := isClosingParen) rfl hs]
  split
  · rename_i hk
    obtain ⟨close, left, e, hclose⟩ := Tokens.exists_of_startsWith hk
    rw [e, callOf_cons, if_pos hclose]
    exact .step .token (.pure _)
  · rename_i hk
    rw [callOf_eq_argumentsOf _ hk]
    apply Follows.bind (hn true _ _ (Nat.lt_succ_of_le (skipBlank_length_le rest)))
    intro arguments r _
    apply Follows.bind .blanks
    intro _ r _
    apply Follows.bind (.expect rfl fun hs => unexpected_before hs _ _)
    intro close r _
    exact .pure _

theorem follows_plainTerm (hn : FollowsBelow i nested s.length) :
    Follows i (plainTerm nested) s ps (Grammar.term false s) := by
  apply Follows.of_leaves
  intro hs
  rw [plainTerm, term_eq]
  apply Follows.get
  cases s with
  | nil =>
    rw [kind_nil hs]
    show Follows i (throw ((i.before [] ps).unexpected "value")) [] ps _
    rw [unexpected_before hs]
    exact .throw _
  | cons t rest =>
    rw [kind_cons hs, unexpected_before hs]
    dsimp only
    rw [Bool.false_and, if_neg Bool.false_ne_true]
    dsimp only
    cases t.kind with
    | function name => exact follows_functionCall hn
    | _ => first | exact .step .token (.pure _) | exact .throw _

/-- A named argument from its name on. -/
theorem follows_namedArgument {equals : Tree} {behind : Tokens}
    (he : equalsSign? rest = some (equals, behind)) (hn : FollowsBelow i nested behind.length) :
    Follows i (namedArgument nested) (t :: rest) ps (Grammar.namedArgument t.leaf equals behind) := by
  rw [equalsSign?] at he
  cases hk : Tokens.skipBlank rest with
  | nil =>
    rw [hk] at he
    contradiction
  | cons u more =>
    rw [hk] at he
    dsimp only at he
    split at he
    · cases he
      apply Follows.step .token
      apply Follows.step .blanks
      rw [hk]
      apply Follows.step .token
      apply Follows.step .blanks
      exact Follows.bind (follows_plainTerm hn) fun value left _ => .pure _
    · contradiction

theorem follows_term (hn : FollowsBelow i nested s.length) :
    Follows i (term nested named) s ps (Grammar.term named s) := by
  apply Follows.of_leaves
  intro hs
  rw [term]
  apply Follows.get
  cases s with
  | nil =>
    have hk : ¬ (named && (i.before [] ps).kind.isIdent &&
        (i.before [] ps).nextKind? == some (.comparison .equals)) = true := by
      rw [kind_nil hs]
      cases named <;> exact Bool.false_ne_true
    rw [if_neg hk, term_eq, ← term_eq false []]
    exact follows_plainTerm hn
  | cons t rest =>
    have hk : (named && t.kind.isIdent && (equalsSign? rest).isSome) =
        (if named && t.kind.isIdent then equalsSign? rest else none).isSome := by
      cases named && t.kind.isIdent <;> rfl
    rw [kind_cons hs, nextKind?_equals hs, hk, term_eq]
    dsimp only
    cases he : (if named && t.kind.isIdent then equalsSign? rest else none) with
    | some sign =>
      have he' : equalsSign? rest = some sign := by
        split at he
        · exact he
        · contradiction
      exact follows_namedArgument he' (hn.mono (Nat.le_succ_of_le (Nat.le_of_lt (equalsSign?_length he'))))
    | none =>
      have hplain : Follows i (plainTerm nested) (t :: rest) ps (Grammar.term false (t :: rest)) :=
        follows_plainTerm hn
      rw [term_eq] at hplain
      exact hplain

/-! ## Rounds -/

theorem separates_suffix (s : Tokens) : (separates s).2 <:+ s := by
  have hb := Tokens.skipBlank_suffix s
  rw [separates]
  cases hk : Tokens.skipBlank s with
  | nil => exact List.nil_suffix
  | cons t rest =>
    rw [hk] at hb
    dsimp only
    split
    · exact (Tokens.skipBlank_suffix rest).trans ((List.suffix_cons t rest).trans hb)
    · split <;> exact hb

/-- What stands between two terms, as a production. -/
def separation : Production (Option (List Tree)) := fun s => .accepted (separates s).1 (separates s).2

/-- A round of a value: a term, and what separates it from the next one. -/
def valueStep (named : Bool) (children : List Tree) : Production (Step (List Tree) (List Tree)) := do
  let term ← Grammar.term named
  match ← separation with
  | some between => return .again (children ++ term :: between)
  | none => return .done (children ++ [term])

theorem valueStep_apply (named : Bool) (children : List Tree) (s : Tokens) :
    valueStep named children s = match Grammar.term named s with
      | .accepted term left => .accepted (match (separates left).1 with
        | some between => .again (children ++ term :: between)
        | none => .done (children ++ [term])) (separates left).2
      | .rejected f left => .rejected f left := by
  rw [valueStep, bind_apply]
  cases Grammar.term named s with
  | rejected f left => rfl
  | accepted term left =>
    show (separation >>= fun between => _) left = _
    rw [bind_apply, separation]
    dsimp only
    cases (separates left).1 <;> rfl

theorem follows_valueRound {children : List Tree} (hn : FollowsBelow i nested s.length) :
    Follows i (valueRound nested named children) s ps (valueStep named children s) := by
  rw [valueRound]
  apply Follows.bind (follows_term hn)
  intro term left _
  apply Follows.bind (p := separation) (.lift .separator)
  intro between left _
  cases between with
  | some between => exact .pure _
  | none => exact .pure _

theorem valueStep_shorter {children next : List Tree}
    (h : valueStep named children s = .accepted (.again next) rest) : rest.length < s.length := by
  rw [valueStep_apply] at h
  cases ht : Grammar.term named s with
  | rejected f left =>
    rw [ht] at h
    contradiction
  | accepted term left =>
    rw [ht] at h
    obtain ⟨-, rfl⟩ := Outcome.accepted.inj h
    exact Nat.lt_of_le_of_lt (separates_suffix left).length_le (term_consumes named s term left ht)

/-- What the rounds of a value read, behind the trees in front. -/
def valueBehind (named : Bool) (children : List Tree) : Production (List Tree) := do
  let first ← Grammar.term named
  let more ← terms named
  return children ++ first :: more

theorem valueBehind_apply (named : Bool) (children : List Tree) (s : Tokens) :
    valueBehind named children s = match Grammar.term named s with
      | .accepted first left => (terms named left).map (children ++ first :: ·)
      | .rejected f left => .rejected f left := by
  rw [valueBehind, bind_apply]
  cases Grammar.term named s with
  | rejected f left => rfl
  | accepted first left =>
    exact bind_pure_apply (terms named) _ left

theorem valueBehind_append (named : Bool) (front children : List Tree) (s : Tokens) :
    valueBehind named (front ++ children) s = (valueBehind named children s).map (front ++ ·) := by
  rw [valueBehind_apply, valueBehind_apply]
  cases Grammar.term named s with
  | rejected f left => rfl
  | accepted first left =>
    cases h : terms named left <;> simp [h, Outcome.map]

/-- Behind a term a value ends, or goes on behind what separates it from the next one. -/
theorem terms_eq_separates (named : Bool) (s : Tokens) :
    terms named s = match (separates s).1 with
      | some between => valueBehind named between (separates s).2
      | none => .accepted [] (separates s).2 := by
  rw [terms_eq, separates]
  cases Tokens.skipBlank s with
  | nil => rfl
  | cons t rest =>
    dsimp only
    by_cases hsep : isSeparator t.kind = true
    · rw [if_pos hsep, if_pos hsep]
      rfl
    rw [if_neg hsep, if_neg hsep]
    by_cases hstart : startsTerm t.kind = true
    · rw [if_pos hstart, if_pos hstart]
      rfl
    · rw [if_neg hstart, if_neg hstart]

/-- The rounds of a value one behind the other. -/
theorem valueBehind_eq (named : Bool) (children : List Tree) (s : Tokens) :
    valueBehind named children s = behindAttempt (valueBehind named) (valueStep named children s) := by
  rw [valueBehind_apply, valueStep_apply]
  cases Grammar.term named s with
  | rejected f left => rfl
  | accepted term left =>
    dsimp only
    rw [terms_eq_separates]
    cases (separates left).1 with
    | none => rfl
    | some between =>
      dsimp only
      rw [behindAttempt_again, show children ++ term :: between = (children ++ [term]) ++ between by simp,
        valueBehind_append]
      simp

/-! ## Values -/

theorem value_eq_valueBehind (named : Bool) (s : Tokens) {k : Nat}
    (hk : ∀ t rest, s = t :: rest → t.index = k) :
    Grammar.value named s = (valueBehind named [] s).map (Tree.node .value k) := by
  rw [value_eq, bind_apply, valueBehind_apply]
  cases hf : Grammar.term named s with
  | rejected f left => rfl
  | accepted first left =>
    obtain ⟨t, rest, rfl, hfirst⟩ := term_heads named s first left hf
    show (terms named >>= fun more => pure (Tree.node .value first.first (first :: more))) left =
      ((terms named left).map (first :: ·)).map (Tree.node .value k)
    rw [bind_pure_apply, hfirst, hk t rest rfl]
    cases terms named left <;> rfl

theorem follows_valueOf (hn : FollowsBelow i nested s.length) :
    Follows i (valueOf nested named) s ps (Grammar.value named s) := by
  apply Follows.of_leaves
  intro hs
  rw [valueOf]
  apply Follows.get
  have h : Follows i (attempt (valueRound nested named) []) s ps (valueBehind named [] s) :=
    Follows.attempt_of (I := fun _ r => r.length ≤ s.length)
      (fun children r qs hr => follows_valueRound (hn.mono hr))
      (fun children r next left hr e =>
        ⟨Nat.le_trans (Nat.le_of_lt (valueStep_shorter e)) hr, valueStep_shorter e⟩)
      (fun children r _ => valueBehind_eq named children r) (Nat.le_refl _) ps
  apply h.map_eq
  apply (value_eq_valueBehind named s _).symm
  rintro t rest rfl
  exact (pos_cons hs ps).symm

theorem follows_value (i : Input) (named : Bool) (s : Tokens) (ps : List Problem) :
    Follows i (value named) s ps (Grammar.value named s) := by
  generalize hn : s.length = n
  induction n using Nat.strongRecOn generalizing named s ps with
  | _ n ih =>
    intro hs
    show _ ∧ valueFrom named (i.before s ps) = _
    rw [valueFrom]
    -- a value in a call has less left than this one, so it is read and not stuck
    refine follows_valueOf (fun named r qs hr => ?_) hs
    intro hleaves
    show _ ∧ (if _ then valueFrom named (i.before r qs) else none) = _
    rw [if_pos (remaining_lt hs hr ps qs)]
    exact ih r.length (hn ▸ hr) named r qs rfl hleaves

theorem valueRounds (i : Input) (named : Bool) :
    Attempts i (valueRound value named) (valueStep named) where
  follows _ _ _ := follows_valueRound fun named r ps _ => follows_value i named r ps
  shorter _ _ _ _ h := valueStep_shorter h

end Stylesheet.Cursor
