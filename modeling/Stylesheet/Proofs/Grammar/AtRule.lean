import Stylesheet.Proofs.Grammar.Resumed
import Stylesheet.Proofs.Grammar.Statement
import Stylesheet.Proofs.Likeness.Statement

/-!
# At-rules that are not read

An at-rule that is not known goes up to its semicolon or its block. The skip counts braces only: behind a
balanced row it stands where it began if neither a semicolon nor a brace is in the row
(`skipStatement_plain`), and otherwise it has stopped in the row (`skipStatement_stops`). So an at-rule is
skipped as a whole exactly if no semicolon and no brace stands in the brackets of its prelude
(`unknownAtRule_skipsWhole`).
-/

namespace Stylesheet

namespace Grammar

open Production Tokens

/-! ## Preludes and terminators -/

/-- Balanced rows of tokens without a semicolon and a brace, except inside parentheses and square
    brackets. -/
inductive Prelude : Tokens → Prop
  | nil : Prelude []
  | token {t : Placed} {s : Tokens} (ho : t.kind.opens? = none) (hc : t.kind.isClosing = false)
      (hs : t.kind ≠ .semicolon) (h : Prelude s) : Prelude (t :: s)
  | group {o c : Placed} {inner s : Tokens} {b : Bracket} (ho : o.kind.opens? = some b)
      (hb : b ≠ .brace) (hc : c.kind = .closing b) (hi : Balanced true inner) (h : Prelude s) :
      Prelude (o :: (inner ++ c :: s))

/-- What an at-rule ends with: a semicolon or a balanced block. -/
inductive Terminator : Tokens → Prop
  | semicolon {t : Placed} (h : t.kind = .semicolon) : Terminator [t]
  | block {o c : Placed} {inner : Tokens} (ho : o.kind = .opening .brace)
      (hc : c.kind = .closing .brace) (hi : Balanced true inner) : Terminator (o :: (inner ++ [c]))

theorem Prelude.balanced {row : Tokens} (h : Prelude row) : Balanced false row := by
  induction h with
  | nil => exact .nil
  | token ho hc hs _ ih => exact .token ho hc (fun _ => hs) ih
  | group ho _ hc hi _ ih => exact .group ho hc hi ih

/-! ## The skip -/

namespace Skipped

/-- Skipped tokens behind others. -/
def after (row : Tokens) (k : Skipped) : Skipped := ⟨row.map Placed.leaf ++ k.leaves, k.rest⟩

theorem cons_after (t : Placed) (row : Tokens) (k : Skipped) :
    (k.after row).cons t = k.after (t :: row) := rfl

theorem group_after (o c : Placed) (inner row : Tokens) (k : Skipped) :
    (((k.after row).cons c).after inner).cons o = k.after (o :: (inner ++ c :: row)) := by
  simp [after, cons]

theorem length_cons (t : Placed) (k : Skipped) : (k.cons t).leaves.length = k.leaves.length + 1 :=
  rfl

theorem length_after (row : Tokens) (k : Skipped) :
    (k.after row).leaves.length = row.length + k.leaves.length := by
  rw [after, List.length_append, List.length_map]

end Skipped

section

variable {t : Placed} {depth : Nat} (s : Tokens)

theorem skipStatement_pass (ho : t.kind ≠ .opening .brace) (hc : t.kind ≠ .closing .brace)
    (hs : depth = 0 → t.kind ≠ .semicolon) :
    skipStatement depth (t :: s) = (skipStatement depth s).cons t := by
  rw [skipStatement, if_neg (fun h => hc h.2), if_neg (fun h => hs h.1 h.2), if_neg ho, if_neg hc]

theorem skipStatement_opening (h : t.kind = .opening .brace) :
    skipStatement depth (t :: s) = (skipStatement (depth + 1) s).cons t := by
  rw [skipStatement, if_neg (by simp [h]), if_neg (by simp [h]), if_pos h]

/-- The brace that closes the block. -/
theorem skipStatement_last (h : t.kind = .closing .brace) :
    skipStatement 1 (t :: s) = ⟨[t.leaf], s⟩ := by
  rw [skipStatement, if_neg (by simp), if_neg (by simp), if_neg (by simp [h]), if_pos h,
    if_pos (Nat.le_refl 1)]

/-- A brace in the block. -/
theorem skipStatement_closing (h : t.kind = .closing .brace) :
    skipStatement (depth + 2) (t :: s) = (skipStatement (depth + 1) s).cons t := by
  rw [skipStatement, if_neg (by simp), if_neg (by simp), if_neg (by simp [h]), if_pos h,
    if_neg (by omega)]
  rfl

theorem skipStatement_semicolon (h : t.kind = .semicolon) :
    skipStatement 0 (t :: s) = ⟨[t.leaf], s⟩ := by
  rw [skipStatement, if_neg (by simp [h]), if_pos ⟨rfl, h⟩]

end

theorem eq_opening_of_opens? {k : TokenKind} (h : k.opens? = some .brace) : k = .opening .brace := by
  cases k <;> cases h
  rfl

theorem ne_brace_of_opens?_none {k : TokenKind} (ho : k.opens? = none) (hc : k.isClosing = false) :
    k ≠ .opening .brace ∧ k ≠ .closing .brace := by
  refine ⟨?_, ?_⟩
  · rintro rfl
    contradiction
  · rintro rfl
    contradiction

/-- Brackets that are no braces. -/
theorem ne_brace_of_group {o c : Placed} {b : Bracket} (ho : o.kind.opens? = some b)
    (hc : c.kind = .closing b) (hb : b ≠ .brace) :
    (o.kind ≠ .opening .brace ∧ o.kind ≠ .closing .brace ∧ o.kind ≠ .semicolon) ∧
      c.kind ≠ .opening .brace ∧ c.kind ≠ .closing .brace ∧ c.kind ≠ .semicolon := by
  refine ⟨⟨?_, ?_, ?_⟩, ?_, ?_, ?_⟩
  · intro e
    rw [e] at ho
    cases ho
    exact hb rfl
  · intro e
    rw [e] at ho
    contradiction
  · intro e
    rw [e] at ho
    contradiction
  · simp [hc]
  · simpa [hc] using hb
  · simp [hc]

/-- Inside a block, the skip passes a balanced row. -/
theorem skipStatement_balanced {divided : Bool} {row : Tokens} (h : Balanced divided row)
    (depth : Nat) (s : Tokens) :
    skipStatement (depth + 1) (row ++ s) = (skipStatement (depth + 1) s).after row := by
  induction h generalizing depth s with
  | nil => rfl
  | token ho hc _ _ ih =>
    obtain ⟨hopen, hclose⟩ := ne_brace_of_opens?_none ho hc
    rw [List.cons_append, skipStatement_pass _ hopen hclose (fun e => by contradiction), ih,
      Skipped.cons_after]
  | @group _ o c inner row b ho hc _ _ ihi ih =>
    rw [group_append]
    by_cases hb : b = .brace
    · subst hb
      rw [skipStatement_opening _ (eq_opening_of_opens? ho), ihi, skipStatement_closing _ hc, ih,
        Skipped.group_after]
    · obtain ⟨⟨ho₁, ho₂, -⟩, hc₁, hc₂, -⟩ := ne_brace_of_group ho hc hb
      rw [skipStatement_pass _ ho₁ ho₂ (fun e => by contradiction), ihi,
        skipStatement_pass _ hc₁ hc₂ (fun e => by contradiction), ih,
        Skipped.group_after]

/-- Rows without the tokens that a skip may end at: no semicolon and no opening brace. -/
def EndFree (row : Tokens) : Prop := ∀ t ∈ row, t.kind ≠ .semicolon ∧ t.kind ≠ .opening .brace

instance (row : Tokens) : Decidable (EndFree row) :=
  inferInstanceAs (Decidable (∀ t ∈ row, t.kind ≠ .semicolon ∧ t.kind ≠ .opening .brace))

/-- Outside blocks, the skip passes a balanced row in which nothing can end it. -/
theorem skipStatement_plain {divided : Bool} {row : Tokens} (h : Balanced divided row)
    (hp : EndFree row) (s : Tokens) :
    skipStatement 0 (row ++ s) = (skipStatement 0 s).after row := by
  induction h generalizing s with
  | nil => rfl
  | token ho hc _ _ ih =>
    obtain ⟨ht, hp⟩ := List.forall_mem_cons.1 hp
    obtain ⟨hopen, hclose⟩ := ne_brace_of_opens?_none ho hc
    rw [List.cons_append, skipStatement_pass _ hopen hclose (fun _ => ht.1), ih hp,
      Skipped.cons_after]
  | @group _ o c inner row b ho hc _ _ ihi ih =>
    obtain ⟨hpo, hp⟩ := List.forall_mem_cons.1 hp
    obtain ⟨hpi, hp⟩ := List.forall_mem_append.1 hp
    obtain ⟨-, hp⟩ := List.forall_mem_cons.1 hp
    have hb : b ≠ .brace := by
      rintro rfl
      exact hpo.2 (eq_opening_of_opens? ho)
    obtain ⟨⟨ho₁, ho₂, ho₃⟩, hc₁, hc₂, hc₃⟩ := ne_brace_of_group ho hc hb
    rw [group_append, skipStatement_pass _ ho₁ ho₂ (fun _ => ho₃), ihi hpi,
      skipStatement_pass _ hc₁ hc₂ (fun _ => hc₃), ih hp, Skipped.group_after]

/-- It stops in any other. -/
theorem skipStatement_stops {divided : Bool} {row : Tokens} (h : Balanced divided row)
    (hp : ¬EndFree row) (s : Tokens) :
    (skipStatement 0 (row ++ s)).leaves.length ≤ row.length := by
  induction h generalizing s with
  | nil => exact absurd (fun t ht => by contradiction) hp
  | @token _ t row ho hc _ _ ih =>
    rw [List.cons_append]
    by_cases hs : t.kind = .semicolon
    · rw [skipStatement_semicolon _ hs]
      exact Nat.succ_le_succ (Nat.zero_le _)
    · obtain ⟨hopen, hclose⟩ := ne_brace_of_opens?_none ho hc
      rw [skipStatement_pass _ hopen hclose (fun _ => hs)]
      exact Nat.succ_le_succ (ih (fun h => hp (List.forall_mem_cons.2 ⟨⟨hs, hopen⟩, h⟩)) s)
  | @group _ o c inner row b ho hc hi _ ihi ih =>
    have hlength : (o :: (inner ++ c :: row)).length = inner.length + row.length + 2 := by
      rw [List.length_cons, List.length_append, List.length_cons]
      omega
    rw [group_append, hlength]
    by_cases hb : b = .brace
    · -- the brace is closed again, which ends the skip
      subst hb
      rw [skipStatement_opening _ (eq_opening_of_opens? ho), skipStatement_balanced hi,
        skipStatement_last _ hc, Skipped.length_cons, Skipped.length_after, List.length_singleton]
      omega
    · obtain ⟨⟨ho₁, ho₂, ho₃⟩, hc₁, hc₂, hc₃⟩ := ne_brace_of_group ho hc hb
      rw [skipStatement_pass _ ho₁ ho₂ (fun _ => ho₃)]
      -- the first end stands behind the group, or else inside it
      by_cases hpi : EndFree inner
      · have hpr : ¬EndFree row := fun hpr =>
          hp (List.forall_mem_cons.2 ⟨⟨ho₃, ho₁⟩, List.forall_mem_append.2
            ⟨hpi, List.forall_mem_cons.2 ⟨⟨hc₃, hc₁⟩, hpr⟩⟩⟩)
        have hl := ih hpr s
        rw [skipStatement_plain hi hpi, skipStatement_pass _ hc₁ hc₂ (fun _ => hc₃),
          Skipped.length_cons, Skipped.length_after, Skipped.length_cons]
        omega
      · have hl := ihi hpi (c :: (row ++ s))
        rw [Skipped.length_cons]
        omega

/-- A terminator ends it. -/
theorem Terminator.skipStatement {ending : Tokens} (h : Terminator ending) (s : Tokens) :
    skipStatement 0 (ending ++ s) = ⟨ending.map Placed.leaf, s⟩ := by
  cases h with
  | semicolon h => exact skipStatement_semicolon s h
  | @block o c inner ho hc hi =>
    rw [group_append, List.nil_append, skipStatement_opening _ ho, skipStatement_balanced hi,
      skipStatement_last _ hc]
    simp [Skipped.cons, Skipped.after]

theorem Terminator.ne_nil {ending : Tokens} (h : Terminator ending) : ending ≠ [] := by
  cases h <;> exact List.cons_ne_nil _ _

/-! ## The loops -/

section

variable {keyword : Placed} {name : String} (hk : keyword.kind = .atKeyword name)
  (hname : ∀ word ∈ ["namespace", "font-face", "media"], sameWord name word = false) (st : Setting)
  (s : Tokens)

include hk

/-- A media block goes on behind an at-rule. -/
theorem mediaBlock_unknownAtRule : mediaBlock st (keyword :: s) =
    (mediaBlock st (skipStatement 0 s).rest).cons (unknownAtRule keyword s).result := by
  rw [mediaBlock_eq, skipBlank_cons (by simp [hk])]
  dsimp only
  rw [if_neg (by simp [hk]), if_pos (by rw [hk]; rfl)]
  rfl

include hname

/-- So do the statements of a stylesheet, behind one that is not known. -/
theorem statements_unknownAtRule : statements st (keyword :: s) =
    (statements st (skipStatement 0 s).rest).cons (unknownAtRule keyword s).result := by
  have hstatement : statement st keyword s = unknownAtRule keyword s := by
    rw [statement, hk]
    dsimp only [keyword?]
    rw [atRule, if_neg (by simp [hname]), if_neg (by simp [hname]), if_neg (by simp [hname])]
  rw [statements_eq, skipBlank_cons (by simp [hk])]
  dsimp only
  rw [hstatement]
  rfl

end

/-- The statements of a stylesheet over tokens numbered `n` higher. -/
theorem statements_shift (st : Setting) (n : Nat) (s : Tokens) :
    statements (st.shift n) (s.map (Placed.shift n)) = (statements st s).shift n :=
  (Likeness.statements_like (Likeness.settingLike_shift st)
    (Likeness.inputLike_shift s)).eq_shift (s := s)
    (by rw [statements_rest]; exact List.nil_suffix) (by rw [statements_rest]; exact List.nil_suffix)

/-- The content of a media block over tokens numbered `n` higher. -/
theorem mediaBlock_shift (st : Setting) (n : Nat) (s : Tokens) :
    mediaBlock (st.shift n) (s.map (Placed.shift n)) = (mediaBlock st s).shift n :=
  (Likeness.mediaBlock_like (Likeness.settingLike_shift st)
    (Likeness.inputLike_shift s)).eq_shift (mediaBlock_suffix st s) (mediaBlock_suffix _ _)

/-- A loop takes an at-rule as one node over its tokens, and goes on behind it as it would begin there,
    but for the numbers of the tokens. -/
def SkipsWhole (loop : Setting → Tokens → Parsed (List Tree)) (st : Setting) (keyword : Placed)
    (taken behind : Tokens) (n : Nat) : Prop :=
  loop (st.shift n) (keyword :: (taken ++ behind.map (Placed.shift n))) =
    ((loop st behind).shift n).cons
      (.node .unknownAtRule keyword.index ((keyword :: taken).map Placed.leaf))

theorem skipsWhole_iff {loop : Setting → Tokens → Parsed (List Tree)} {keyword : Placed}
    (hstep : ∀ st s, loop st (keyword :: s) =
      (loop st (skipStatement 0 s).rest).cons (unknownAtRule keyword s).result)
    (hshift : ∀ st n s, loop (st.shift n) (s.map (Placed.shift n)) = (loop st s).shift n)
    {divided : Bool} {row ending : Tokens} (hrow : Balanced divided row) (hend : Terminator ending)
    (st : Setting) (behind : Tokens) (n : Nat) :
    SkipsWhole loop st keyword (row ++ ending) behind n ↔ EndFree row := by
  rw [SkipsWhole, hstep, List.append_assoc]
  constructor
  · intro h
    by_contra hp
    have hl := skipStatement_stops hrow hp (ending ++ behind.map (Placed.shift n))
    have hresult := congrArg Parsed.result h
    injection hresult with hnode _
    injection hnode with _ _ hleaves
    injection hleaves with _ hleaves
    rw [hleaves, List.length_map, List.length_append] at hl
    have hpos := List.length_pos_iff.2 hend.ne_nil
    omega
  · intro hp
    have hskip : skipStatement 0 (row ++ (ending ++ behind.map (Placed.shift n))) =
        ⟨(row ++ ending).map Placed.leaf, behind.map (Placed.shift n)⟩ := by
      rw [skipStatement_plain hrow hp, hend.skipStatement, Skipped.after, List.map_append]
    rw [unknownAtRule, hskip, hshift]
    rfl

end Grammar

open Grammar

/-- An at-rule that is not known, with a prelude and what ends it, is skipped as a whole exactly if no
    semicolon and no brace stands in its prelude, among statements and in a media block. -/
theorem unknownAtRule_skipsWhole (st : Setting) {keyword : Placed} {name : String}
    (hk : keyword.kind = .atKeyword name)
    (hname : ∀ word ∈ ["namespace", "font-face", "media"], sameWord name word = false)
    {row ending : Tokens} (hrow : Prelude row) (hend : Terminator ending) (behind : Tokens) (n : Nat) :
    (SkipsWhole statements st keyword (row ++ ending) behind n ↔ EndFree row) ∧
      (SkipsWhole mediaBlock st keyword (row ++ ending) behind n ↔ EndFree row) :=
  ⟨skipsWhole_iff (statements_unknownAtRule hk hname) statements_shift hrow.balanced hend st behind n,
    skipsWhole_iff (mediaBlock_unknownAtRule hk) mediaBlock_shift hrow.balanced hend st behind n⟩

/-- `(a[b])`, a prelude with brackets in it. -/
def bracketRow : Tokens :=
  [unwritten 1 (.opening .paren), unwritten 2 (.ident "a"), unwritten 3 (.opening .square),
    unwritten 4 (.ident "b"), unwritten 5 (.closing .square), unwritten 6 (.closing .paren)]

/-- `\x7b ; \x7d`, a block with a semicolon in it. -/
def semicolonBlock : Tokens :=
  [unwritten 7 (.opening .brace), unwritten 8 .semicolon, unwritten 9 (.closing .brace)]

/-- The semicolon in the block ends nothing. -/
theorem unknownAtRule_skipsWhole_bracketRow :
    let keyword := unwritten 0 (.atKeyword "x")
    let behind := [unwritten 0 (.ident "c"), unwritten 1 (.opening .brace),
      unwritten 2 (.closing .brace)]
    let st : Setting := ⟨"", 3, .nowhere⟩
    (∀ word ∈ ["namespace", "font-face", "media"], sameWord "x" word = false) ∧
      Prelude bracketRow ∧ Terminator semicolonBlock ∧ EndFree bracketRow ∧
      SkipsWhole statements st keyword (bracketRow ++ semicolonBlock) behind 10 ∧
      SkipsWhole mediaBlock st keyword (bracketRow ++ semicolonBlock) behind 10 := by
  intro keyword behind st
  have hname : ∀ word ∈ ["namespace", "font-face", "media"], sameWord "x" word = false := by
    decide
  have hrow : Prelude bracketRow :=
    @Prelude.group (unwritten 1 (.opening .paren)) (unwritten 6 (.closing .paren))
      [unwritten 2 (.ident "a"), unwritten 3 (.opening .square), unwritten 4 (.ident "b"),
        unwritten 5 (.closing .square)] [] .paren rfl nofun rfl
      (.token rfl rfl nofun (@Balanced.group true (unwritten 3 (.opening .square))
        (unwritten 5 (.closing .square)) [unwritten 4 (.ident "b")] [] .square rfl rfl
        (.token rfl rfl nofun .nil) .nil)) .nil
  have hend : Terminator semicolonBlock :=
    @Terminator.block (unwritten 7 (.opening .brace)) (unwritten 9 (.closing .brace))
      [unwritten 8 .semicolon] rfl rfl (.token rfl rfl nofun .nil)
  have hfree : EndFree bracketRow := by decide
  obtain ⟨htop, hmedia⟩ := @unknownAtRule_skipsWhole st keyword "x" rfl hname bracketRow semicolonBlock
    hrow hend behind 10
  exact ⟨hname, hrow, hend, hfree, htop.2 hfree, hmedia.2 hfree⟩

/-- `(;)`, a prelude with a semicolon in its parentheses. -/
def semicolonRow : Tokens :=
  [unwritten 1 (.opening .paren), unwritten 2 .semicolon, unwritten 3 (.closing .paren)]

/-- This semicolon ends the at-rule, and the parenthesis behind it is an error. -/
theorem not_skipsWhole_semicolonRow :
    let keyword := unwritten 0 (.atKeyword "x")
    let ending := [unwritten 4 .semicolon]
    let st : Setting := ⟨"", 0, .nowhere⟩
    (∀ word ∈ ["namespace", "font-face", "media"], sameWord "x" word = false) ∧
      Prelude semicolonRow ∧ Terminator ending ∧
      ¬SkipsWhole statements st keyword (semicolonRow ++ ending) [] 5 ∧
      ¬SkipsWhole mediaBlock st keyword (semicolonRow ++ ending) [] 5 := by
  intro keyword ending st
  have hrow : Prelude semicolonRow :=
    @Prelude.group (unwritten 1 (.opening .paren)) (unwritten 3 (.closing .paren))
      [unwritten 2 .semicolon] [] .paren rfl nofun rfl (.token rfl rfl nofun .nil) .nil
  refine ⟨by decide, hrow, .semicolon rfl, fun h => ?_, fun h => ?_⟩
  · have hlength : (statements (st.shift 5) (keyword :: (semicolonRow ++ ending))).problems.length =
        (statements st []).problems.length := congrArg (fun p => p.problems.length) h
    exact absurd hlength (by decide +kernel)
  · have hlength : (mediaBlock (st.shift 5) (keyword :: (semicolonRow ++ ending))).problems.length =
        (mediaBlock st []).problems.length := congrArg (fun p => p.problems.length) h
    exact absurd hlength (by decide +kernel)

end Stylesheet
