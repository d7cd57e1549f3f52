import Mathlib.Data.List.TakeWhile
import Stylesheet.Cursor.Basic
import Stylesheet.Proofs.Grammar.Equations
import Stylesheet.Proofs.Grammar.Numbered

/-!
# What a cursor sees

A cursor in front of the first `eof` has the tokens up to there ahead of it (`Input.before`). What it
sees and where it moves are the head and the tail of these, and not what stands behind the `eof`:
`kind_before`, `nextKind?_before`, `bump_before`.
-/

namespace Stylesheet

namespace Input

open Grammar

/-- The number of the first `eof`. -/
def stop (i : Input) : Nat := i.tokens.findIdx Token.isEof

/-- The tokens in front of the first `eof`. -/
def ahead (i : Input) : Tokens := numbered i.tokens

/-- The cursor in front of what is left. -/
def before (i : Input) (s : Tokens) (ps : List Problem) : Cursor := ⟨i, i.stop - s.length, ps⟩

def setting (i : Input) : Setting := Grammar.setting i.source i.tokens

/-- A fault as it is reported. -/
def error (i : Input) (f : Fault) : SyntaxError :=
  ⟨f.cause.kind, f.place.getD i.setting.stopSpan, f.cause.params⟩

/-- What may be left of an input: an end of the tokens in front of its first `eof`. -/
structure Leaves (i : Input) (s : Tokens) : Prop where
  ends : EndsInEof i.tokens
  suffix : s <:+ i.ahead

variable {i : Input} {t : Placed} {s rest : Tokens}

theorem Leaves.of_suffix (h : i.Leaves s) (hr : rest <:+ s) : i.Leaves rest :=
  ⟨h.ends, hr.trans h.suffix⟩

theorem length_ahead (i : Input) : i.ahead.length = i.stop := length_numbered i.tokens

theorem Leaves.length_le (h : i.Leaves s) : s.length ≤ i.stop := i.length_ahead ▸ h.suffix.length_le

/-- What is left is what stands behind the place of the cursor. -/
theorem Leaves.eq_drop (h : i.Leaves s) : s = i.ahead.drop (i.stop - s.length) := by
  rw [← length_ahead]
  exact List.suffix_iff_eq_drop.1 h.suffix

theorem getElem?_ahead {k : Nat} (h : i.ahead[k]? = some t) :
    t.index = k ∧ i.tokens[k]? = some t.token := by
  obtain ⟨hk, rfl⟩ := List.getElem?_eq_some_iff.1 h
  have hi : i.ahead[k].index = k := by
    have e : i.ahead[k] = _ := (numbered_prefix_zipIdx i.tokens).getElem hk
    rw [e, List.getElem_map, List.getElem_zipIdx, Nat.zero_add]
  have ht : i.tokens[i.ahead[k].index]? = some i.ahead[k].token := mem_numbered (List.getElem_mem hk)
  refine ⟨hi, ?_⟩
  generalize i.ahead[k] = u at hi ht
  rwa [hi] at ht

/-- The next token stands where the cursor is. -/
theorem Leaves.getElem?_pos (h : i.Leaves (t :: rest)) (ps : List Problem) :
    t.index = (i.before (t :: rest) ps).pos ∧ i.tokens[(i.before (t :: rest) ps).pos]? = some t.token := by
  apply getElem?_ahead
  have e := congrArg List.head? h.eq_drop
  rw [List.head?_cons, List.head?_drop] at e
  exact e.symm

theorem Leaves.getElem?_index (h : i.Leaves (t :: rest)) : i.tokens[t.index]? = some t.token := by
  obtain ⟨hi, ht⟩ := h.getElem?_pos []
  rwa [hi]

/-- Without tokens there is no `eof` to find. -/
theorem stop_eq_zero (h : i.tokens = []) : i.stop = 0 := by rw [stop, h, List.findIdx_nil]

theorem Leaves.ne_nil (h : i.Leaves (t :: rest)) : i.tokens ≠ [] := by
  intro e
  have hl := h.length_le
  rw [stop_eq_zero e, List.length_cons] at hl
  omega

end Input

namespace Cursor

open Grammar

variable {i : Input} {t : Placed} {s rest : Tokens}

/-! ## Looking -/

/-- The current token: the next one that is left, or else the first `eof` if there is one. -/
theorem current_before (h : i.Leaves s) (ps : List Problem) :
    (i.before s ps).current = (s.head?.map Placed.token).or i.tokens[i.stop]? := by
  cases s with
  | cons t rest =>
    rw [current, List.head?_cons, Option.map_some, Option.some_or]
    show Option.or i.tokens[(i.before (t :: rest) ps).pos]? _ = _
    rw [(h.getElem?_pos ps).2, Option.some_or]
  | nil =>
    rw [current, List.head?_nil, Option.map_none, Option.none_or]
    show Option.or i.tokens[i.stop]? i.tokens.getLast? = _
    by_cases hne : i.tokens = []
    · rw [hne]
      rfl
    · obtain ⟨stop, hstop, -⟩ := exists_eof h.ends hne
      rw [show i.tokens[i.stop]? = some stop from hstop, Option.some_or]

theorem kind_stop (h : EndsInEof i.tokens) {stop : Token} (hs : i.tokens[i.stop]? = some stop) :
    stop.kind = .eof := by
  have hne : i.tokens ≠ [] := by
    intro e
    rw [e] at hs
    contradiction
  obtain ⟨u, hu, hk⟩ := exists_eof h hne
  rw [show i.tokens[i.stop]? = some u from hu] at hs
  cases hs
  exact hk

theorem kind_before (h : i.Leaves s) (ps : List Problem) :
    (i.before s ps).kind = s.kind?.getD .eof := by
  rw [kind, current_before h, Tokens.kind?]
  cases s with
  | cons t rest => rfl
  | nil =>
    cases hs : i.tokens[i.stop]? with
    | none => rfl
    | some stop => exact kind_stop h.ends hs

theorem found_before (h : i.Leaves s) (ps : List Problem) : (i.before s ps).found = s.found := by
  rw [found, current_before h]
  cases s with
  | cons t rest => rfl
  | nil =>
    cases hs : i.tokens[i.stop]? with
    | none => rfl
    | some stop =>
      show stop.describe = TokenKind.eof.describe
      rw [Token.describe, kind_stop h.ends hs]
      rfl

theorem span_before (h : i.Leaves s) (ps : List Problem) :
    (i.before s ps).span = (s.head?.map (·.token.span)).getD i.setting.stopSpan := by
  rw [span, current_before h]
  cases s with
  | cons t rest => rfl
  | nil =>
    show (Option.map _ i.tokens[i.stop]?).getD _ = (i.tokens[i.ahead.length]?.map Token.span).getD _
    rw [i.length_ahead]

theorem pos_before (h : i.Leaves s) (ps : List Problem) :
    (i.before s ps).pos = i.setting.position s := by
  cases s with
  | cons t rest => exact (h.getElem?_pos ps).1.symm
  | nil => exact i.length_ahead.symm

theorem pos_cons (h : i.Leaves (t :: rest)) (ps : List Problem) :
    (i.before (t :: rest) ps).pos = t.index :=
  (h.getElem?_pos ps).1.symm

theorem spanOf_before {k : Nat} {u : Token} (h : i.tokens[k]? = some u) (ps : List Problem) :
    (i.before s ps).spanOf k = u.span := by
  show (Option.map Token.span i.tokens[k]?).getD _ = _
  rw [h]
  rfl

theorem textOf_before {k : Nat} {u : Token} (h : i.tokens[k]? = some u) (ps : List Problem) :
    (i.before s ps).textOf k = u.text := by
  show (Option.map Token.text i.tokens[k]?).getD _ = _
  rw [h]
  rfl

/-- Whether the next token is of a kind that is not the end. -/
theorem startsWith_before {p : TokenKind → Bool} (hp : p .eof = false) (h : i.Leaves s)
    (ps : List Problem) : p (i.before s ps).kind = s.startsWith p := by
  rw [kind_before h]
  cases s with
  | nil => exact hp
  | cons t rest => rfl

theorem kind_cons (h : i.Leaves (t :: rest)) (ps : List Problem) :
    (i.before (t :: rest) ps).kind = t.kind :=
  kind_before h ps

theorem kind_nil (h : i.Leaves []) (ps : List Problem) : (i.before [] ps).kind = .eof :=
  kind_before h ps

theorem atEof_before (h : i.Leaves s) (ps : List Problem) : (i.before s ps).atEof = s.isEmpty := by
  rw [atEof]
  cases s with
  | nil =>
    rw [kind_nil h]
    rfl
  | cons t rest =>
    have hk : t.kind ≠ .eof := ne_eof_of_mem_numbered (h.suffix.subset List.mem_cons_self)
    rw [kind_cons h]
    exact beq_eq_false_iff_ne.2 hk

/-- Behind the next token stand the tokens that are left, and behind these an `eof`. -/
theorem drop_before (h : i.Leaves (t :: rest)) (ps : List Problem) :
    ∃ stop behind, stop.kind = .eof ∧
      i.tokens.drop ((i.before (t :: rest) ps).pos + 1) = rest.map Placed.token ++ stop :: behind := by
  have hl := h.length_le
  rw [List.length_cons] at hl
  obtain ⟨stop, hstop, hk⟩ := exists_eof h.ends h.ne_nil
  obtain ⟨hlt, hget⟩ := List.getElem?_eq_some_iff.1 (show i.tokens[i.stop]? = some stop from hstop)
  have hfront : i.ahead.map Placed.token = i.tokens.take i.stop := by
    have hp := List.prefix_iff_eq_take.1 (numbered_prefix_tokens i.tokens)
    rwa [List.length_map, show (numbered i.tokens).length = i.stop from i.length_ahead] at hp
  have htail : rest = i.ahead.drop ((i.before (t :: rest) ps).pos + 1) := by
    have e := congrArg List.tail h.eq_drop
    rwa [List.tail_cons, List.tail_drop] at e
  have hpos : (i.before (t :: rest) ps).pos + 1 ≤ (i.tokens.take i.stop).length := by
    show i.stop - (rest.length + 1) + 1 ≤ _
    rw [List.length_take]
    omega
  refine ⟨stop, i.tokens.drop (i.stop + 1), hk, ?_⟩
  calc i.tokens.drop ((i.before (t :: rest) ps).pos + 1)
      = (i.tokens.take i.stop ++ i.tokens.drop i.stop).drop ((i.before (t :: rest) ps).pos + 1) := by
        rw [List.take_append_drop]
    _ = (i.tokens.take i.stop).drop ((i.before (t :: rest) ps).pos + 1) ++ i.tokens.drop i.stop :=
        List.drop_append_of_le_length hpos
    _ = rest.map Placed.token ++ stop :: i.tokens.drop (i.stop + 1) := by
        rw [← hfront, ← List.map_drop, ← htail, List.drop_eq_getElem_cons hlt, hget]

theorem nextKind?_before (h : i.Leaves (t :: rest)) (ps : List Problem) :
    (i.before (t :: rest) ps).nextKind? = some ((Tokens.skipBlank rest).kind?.getD .eof) := by
  obtain ⟨stop, behind, hk, e⟩ := drop_before h ps
  have hb : (!stop.isWhitespace) = true := by
    rw [Token.isWhitespace, hk]
    rfl
  have hskip : (rest.find? fun u => !u.token.isWhitespace) = (Tokens.skipBlank rest).head? := by
    rw [List.find?_eq_head?_dropWhile_not]
    simp only [Bool.not_not]
    rfl
  rw [nextKind?]
  show Option.map _ (List.find? _ (i.tokens.drop _)) = _
  rw [e, List.find?_append, List.find?_map, List.find?_cons, hb, Function.comp_def, hskip, Tokens.kind?]
  cases (Tokens.skipBlank rest).head? with
  | none => exact congrArg some hk
  | some u => rfl

theorem kindAhead?_before (h : i.Leaves (t :: rest)) (ps : List Problem) :
    (i.before (t :: rest) ps).kindAhead? 1 = some (rest.kind?.getD .eof) := by
  obtain ⟨stop, behind, hk, e⟩ := drop_before h ps
  have hhead := congrArg List.head? e
  rw [List.head?_drop] at hhead
  rw [kindAhead?]
  show Option.map _ i.tokens[_]? = _
  rw [hhead]
  cases rest with
  | nil => exact congrArg some hk
  | cons u rest => rfl

/-! ## Moving -/

/-- Where the cursor stands when it has gone past a token. -/
theorem next_before (h : i.Leaves (t :: rest)) (ps : List Problem) :
    (i.before (t :: rest) ps).next = i.before rest ps := by
  have hl := h.length_le
  rw [List.length_cons] at hl
  rw [next, atEof_before h]
  show Cursor.mk i (i.stop - (t :: rest).length + 1) ps = Cursor.mk i (i.stop - rest.length) ps
  rw [List.length_cons]
  congr 1
  omega

theorem bump_before (h : i.Leaves (t :: rest)) (ps : List Problem) :
    bump.run (i.before (t :: rest) ps) = some (t.index, i.before rest ps) := by
  have hlt := (List.getElem?_eq_some_iff.1 (h.getElem?_pos ps).2).1
  have hindex : min (i.before (t :: rest) ps).pos (i.tokens.length - 1) = t.index := by
    rw [(h.getElem?_pos ps).1]
    omega
  show some (min (i.before (t :: rest) ps).pos (i.tokens.length - 1), (i.before (t :: rest) ps).next) = _
  rw [hindex, next_before h]

/-! ## Errors -/

/-- What is wrong at the cursor is a fault at the next token. -/
theorem error_before (h : i.Leaves s) (ps : List Problem) (cause : Fault.Cause) :
    SyntaxError.mk cause.kind (i.before s ps).span cause.params = i.error (s.fault cause) := by
  rw [span_before h]
  rfl

theorem unexpected_before (h : i.Leaves s) (ps : List Problem) (expected : String) :
    (i.before s ps).unexpected expected = i.error (s.unexpected expected) := by
  rw [unexpected, found_before h]
  exact error_before h ps (.unexpectedToken expected s.found)

theorem malformedSelector_before (h : i.Leaves s) (ps : List Problem) (f : SelectorFault) :
    (i.before s ps).malformedSelector f.message = i.error (s.fault (.selector f)) :=
  error_before h ps (.selector f)

theorem malformedMedia_before (h : i.Leaves s) (ps : List Problem) (f : MediaFault) :
    (i.before s ps).malformedMedia f.message = i.error (s.fault (.mediaQuery f)) :=
  error_before h ps (.mediaQuery f)

end Cursor

end Stylesheet
