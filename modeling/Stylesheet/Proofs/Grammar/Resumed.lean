import Stylesheet.Proofs.Grammar.Brackets
import Stylesheet.Proofs.Likeness.Shifted

/-!
# Behind a broken declaration

A block goes on behind a broken declaration at the semicolon that ends it. The skip counts the brackets
that it meets, but not those that are open where it begins: if a declaration goes wrong inside a function
call, a semicolon in that call ends the skip too early, and what follows in the call is read as further
declarations. In every case the block goes on behind the semicolon that stands outside all brackets as it
would have begun there (`declarations_resumed`).
-/

namespace Stylesheet

open Grammar Production Tokens

namespace Parsed

/-- Puts trees and problems in front. -/
def after (trees : List Tree) (problems : List Problem) (p : Parsed (List Tree)) :
    Parsed (List Tree) :=
  ⟨trees ++ p.result, problems ++ p.problems, p.rest⟩

theorem cons_eq_after (tree : Tree) (p : Parsed (List Tree)) : p.cons tree = p.after [tree] [] := rfl

theorem report_eq_after (problems : List Problem) (p : Parsed (List Tree)) :
    p.report problems = p.after [] problems := rfl

theorem after_after (trees trees' : List Tree) (problems problems' : List Problem)
    (p : Parsed (List Tree)) : (p.after trees' problems').after trees problems =
      p.after (trees ++ trees') (problems ++ problems') := by
  simp [after]

/-- One goes on as the other, behind trees and problems of its own; if it is `faulty`, there are such
    problems. -/
def Reaches (faulty : Prop) (p q : Parsed (List Tree)) : Prop :=
  ∃ trees problems, p = q.after trees problems ∧ (faulty → problems ≠ [])

theorem Reaches.after {faulty faulty' : Prop} {p q : Parsed (List Tree)} {trees : List Tree}
    {problems : List Problem} (h : Reaches faulty p q)
    (hf : faulty' → faulty ∨ problems ≠ []) : Reaches faulty' (p.after trees problems) q := by
  obtain ⟨trees', problems', rfl, hne⟩ := h
  refine ⟨trees ++ trees', problems ++ problems', after_after .., fun hfaulty => ?_⟩
  intro e
  rw [List.append_eq_nil_iff] at e
  rcases hf hfaulty with h | h
  · exact hne h e.2
  · exact h e.1

theorem Reaches.refl {faulty : Prop} {p : Parsed (List Tree)} (h : ¬faulty) : Reaches faulty p p :=
  ⟨[], [], rfl, fun hf => absurd hf h⟩

end Parsed

/-- One declaration without a problem, or one problem without a declaration. -/
def ReadsAsOne (trees : List Tree) (problems : List Problem) : Prop :=
  (trees.countP (·.kind? == some .declaration) = 1 ∧ problems = []) ∨
    (trees.countP (·.kind? == some .declaration) = 0 ∧ problems.length = 1)

namespace Grammar

/-- The declaration in front is given up, and between there and the semicolon that ends it stands another
    one, in no brackets that open behind the place where the declaration was given up. -/
def ResumesInCall (row : Tokens) (semicolon : Placed) (behind : Tokens) : Prop :=
  ∃ f a t b, declaration (skipBlank (row ++ semicolon :: behind)) =
      .rejected f (a ++ t :: (b ++ semicolon :: behind)) ∧
    t.kind = .semicolon ∧ (a.map Placed.kind).foldl bracketDepth 0 = 0

/-- Whatever the production accepts is so. Only its last step counts, since this gives the result. -/
def Gives {α : Type} (P : α → Prop) (p : Production α) : Prop :=
  ∀ s a rest, p s = .accepted a rest → P a

theorem Gives.bind {α β : Type} {P : β → Prop} {p : Production α} {f : α → Production β}
    (hf : ∀ a, Gives P (f a)) : Gives P (p >>= f) := by
  intro s b rest h
  rw [bind_apply] at h
  cases e : p s with
  | accepted a left =>
    rw [e] at h
    exact hf a left b rest h
  | rejected f left =>
    rw [e] at h
    contradiction

theorem Gives.pure {α : Type} {P : α → Prop} {a : α} (h : P a) :
    Gives P (pure a : Production α) := by
  intro s b rest e
  cases e
  exact h

theorem declaration_kind : Gives (fun d => d.kind? = some .declaration) declaration :=
  .bind fun _ => .bind fun _ => .bind fun _ => .bind fun _ => .bind fun _ => .bind fun _ =>
    .bind fun _ => .bind fun _ => .bind fun _ => .bind fun _ => .bind fun _ => .pure rfl

variable {semicolon : Placed} {behind : Tokens}

theorem Inside.reaches {stack : List Bracket} {s : Tokens} (h : Inside semicolon behind stack s) :
    ∃ front, s = front ++ semicolon :: behind := by
  induction h with
  | stop => exact ⟨[], rfl⟩
  | token _ _ _ _ ih | opening _ _ ih | closing _ _ ih =>
    obtain ⟨front, rfl⟩ := ih
    exact ⟨_ :: front, rfl⟩

/-- Whether a row is balanced has nothing to do with the numbers of its tokens. -/
theorem Balanced.shift {divided : Bool} {row : Tokens} (h : Balanced divided row) (n : Nat) :
    Balanced divided (row.map (Placed.shift n)) := by
  induction h with
  | nil => exact .nil
  | token ho hc hs _ ih => exact .token ho hc hs ih
  | group ho hc _ _ ihi ih =>
    rw [List.map_cons, List.map_append]
    exact .group ho hc ihi ih

theorem Balanced.skipBlank {divided : Bool} {row : Tokens} (h : Balanced divided row) :
    Balanced divided row.skipBlank := by
  induction h with
  | nil => exact .nil
  | @token _ t s ho hc hs h ih =>
    by_cases hw : t.kind = .whitespace
    · rw [skipBlank_blank hw]
      exact ih
    · rw [skipBlank_cons hw]
      exact .token ho hc hs h
  | @group _ o c inner s b ho hc hi h _ _ =>
    rw [skipBlank_cons (by rintro hw; rw [hw] at ho; contradiction)]
    exact .group ho hc hi h

/-- How a balanced row begins, where no semicolon stands outside its brackets. -/
theorem Balanced.front {row : Tokens} (h : Balanced false row)
    (hfilled : ∃ t ∈ row, t.kind ≠ .whitespace) : ∃ t rest, row.skipBlank = t :: rest ∧
      t.kind ≠ .semicolon ∧ t.kind ≠ .closing .brace := by
  have hne : row.skipBlank ≠ [] := by
    intro e
    obtain ⟨t, ht, hw⟩ := hfilled
    exact hw (eq_of_beq (List.dropWhile_eq_nil_iff.1 e t ht))
  have hb := h.skipBlank
  generalize row.skipBlank = s at hne hb
  cases hb with
  | nil => contradiction
  | @token _ t s _ hc hs _ =>
    exact ⟨t, s, rfl, hs rfl, fun e => by rw [e] at hc; contradiction⟩
  | @group _ o c inner s b ho _ _ _ =>
    refine ⟨o, _, rfl, fun e => ?_, fun e => ?_⟩
    · rw [e] at ho
      contradiction
    · rw [e] at ho
      contradiction

/-- A block goes on behind a declaration that is accepted. -/
theorem declarations_accepted (st : Setting) {s left : Tokens} {t : Placed} {r : Tokens} {d : Tree}
    (e : s.skipBlank = t :: r) (hb : t.kind ≠ .closing .brace) (hk : t.kind ≠ .semicolon)
    (hd : declaration (t :: r) = .accepted d left) :
    declarations st s = (declarations st left).after [d] [] := by
  rw [declarations_eq, e]
  dsimp only
  rw [if_neg hb, if_neg hk, hd]
  rfl

/-- And behind the skipped tokens where one is given up. -/
theorem declarations_rejected (st : Setting) {s left : Tokens} {t : Placed} {r : Tokens} {f : Fault}
    (e : s.skipBlank = t :: r) (hb : t.kind ≠ .closing .brace) (hk : t.kind ≠ .semicolon)
    (hd : declaration (t :: r) = .rejected f left) :
    declarations st s = (declarations st (skipDeclaration 0 left).rest).after
      [.node .error (st.position left) (skipDeclaration 0 left).leaves] [st.problem f] := by
  rw [declarations_eq, e]
  dsimp only
  rw [if_neg hb, if_neg hk, hd]
  rfl

theorem readsAsOne_accepted {s left : Tokens} {d : Tree} (hd : declaration s = .accepted d left) :
    ReadsAsOne [d] [] := by
  have hkind := declaration_kind s d left hd
  exact Or.inl ⟨by simp [hkind], rfl⟩

/-- A skip that came to the end of the declaration met no semicolon of a call that was open. -/
theorem not_resumesInCall {row left : Tokens} {f : Fault}
    (hd : declaration (skipBlank (row ++ semicolon :: behind)) = .rejected f left)
    (hskip : (skipDeclaration 0 left).rest = behind) : ¬ResumesInCall row semicolon behind := by
  rintro ⟨g, a, u, b, hrejected, hu, ha⟩
  rw [hd] at hrejected
  cases hrejected
  have hl := skipDeclaration_rest_length (b := b ++ semicolon :: behind) hu ha
  rw [hskip, List.length_append, List.length_cons] at hl
  omega

/-- Behind a semicolon, a block is at the one behind all calls, or it is still inside calls. -/
theorem Past.reaches (st : Setting) {calls : Nat} {left : Tokens}
    (h : Past semicolon behind (List.replicate calls .paren) left)
    (hi : Inside semicolon behind (List.replicate calls .paren) left →
      (declarations st left).Reaches (0 < calls) (declarations st behind)) :
    (declarations st left).Reaches (0 < calls) (declarations st behind) := by
  obtain ⟨-, hnil, rfl⟩ | ⟨-, h⟩ := h
  · rw [List.replicate_eq_nil_iff] at hnil
    exact .refl (by omega)
  · exact hi h

section

variable (hsemi : semicolon.kind = .semicolon)

include hsemi

/-- A declaration that is given up inside calls is skipped up to the semicolon behind all of them, or up to
    one in a call that is open. -/
theorem rejected_inside {calls : Nat} {s left : Tokens} {f : Fault}
    (h : Inside semicolon behind (List.replicate calls .paren) s)
    (hd : declaration s = .rejected f left) :
    (skipDeclaration 0 left).rest = behind ∨
      ∃ a t fewer, left = a ++ t :: (skipDeclaration 0 left).rest ∧ t.kind = .semicolon ∧
        (a.map Placed.kind).foldl bracketDepth 0 = 0 ∧ 0 < fewer ∧
        Inside semicolon behind (List.replicate fewer .paren) (skipDeclaration 0 left).rest := by
  have hleaves := declaration_leaves (Or.inl hsemi) h
  rw [hd] at hleaves
  obtain ⟨more, hi⟩ := hleaves
  rw [← List.replicate_add, ← List.nil_append (List.replicate _ _)] at hi
  obtain ⟨-, e⟩ | ⟨fewer, hi, hrow⟩ := skipDeclaration_inside (Or.inl hsemi) hi
  · exact Or.inl e
  · obtain ⟨hf, a, t, e, ht, ha⟩ := hrow hsemi
    exact Or.inr ⟨a, t, fewer, e, ht, ha, hf, hi⟩

variable (st : Setting)

/-- From inside calls, a block comes to the semicolon behind all of them, and not without a problem. -/
theorem declarations_inside {calls : Nat} {s : Tokens}
    (h : Inside semicolon behind (List.replicate calls .paren) s) :
    (declarations st s).Reaches (0 < calls) (declarations st behind) := by
  have hend : EndsDeclaration semicolon.kind := Or.inl hsemi
  replace h := h.skipBlank hend
  fun_induction declarations st s generalizing calls with
  | case1 s _ e => exact absurd e h.ne_nil
  | case2 s _ t rest e _ hb =>
    rw [e] at h
    obtain ⟨outer, e, -⟩ := h.closed (by rw [hsemi]; decide) hb
    exact absurd e replicate_ne_brace
  | case3 s _ t rest e _ _ hk ih =>
    rw [e] at h
    have hrest := Past.reaches st (h.atSemicolon hk) fun hi => ih (hi.skipBlank hend)
    rw [Parsed.cons_eq_after]
    exact hrest.after Or.inl
  | case4 s _ t rest e _ _ _ d left hd _ ih =>
    rw [e] at h
    have hleaves := declaration_leaves hend h
    rw [hd] at hleaves
    have hrest := Past.reaches st hleaves fun hi => ih (hi.skipBlank hend)
    rw [Parsed.cons_eq_after]
    exact hrest.after Or.inl
  | case5 s _ t rest e _ _ _ f left hd _ ih =>
    rw [e] at h
    have hproblem : [st.problem f] ≠ [] := List.cons_ne_nil _ _
    rw [Parsed.cons_eq_after, Parsed.report_eq_after, Parsed.after_after]
    -- the skip goes past all calls at once, or it stops inside fewer of them
    obtain hskip | ⟨a, u, fewer, -, -, -, -, hi⟩ := rejected_inside hsemi h hd
    · rw [hskip]
      exact (Parsed.Reaches.refl id).after fun _ => Or.inr hproblem
    · exact (ih (hi.skipBlank hend)).after fun _ => Or.inr hproblem

/-- What a row without semicolons outside brackets adds to a block, in front of the one that ends it. -/
theorem declarations_balanced {row : Tokens} (hrow : Balanced false row)
    (hfilled : ∃ t ∈ row, t.kind ≠ .whitespace) :
    ∃ trees problems,
      declarations st (row ++ semicolon :: behind) = (declarations st behind).after trees problems ∧
      (ReadsAsOne trees problems ↔ ¬ResumesInCall row semicolon behind) := by
  have hin : Inside semicolon behind [] (row ++ semicolon :: behind) :=
    hrow.inside (Or.inl hsemi) (fun h => by contradiction) .stop
  obtain ⟨t, rest, hfront, hk, hb⟩ := hrow.front hfilled
  have hsolid : Solid row := solid_of_skipBlank hfront
  have e : skipBlank (row ++ semicolon :: behind) = t :: (rest ++ semicolon :: behind) := by
    rw [hsolid.skipBlank_append, hfront, List.cons_append]
  have hblank : Inside semicolon behind (List.replicate 0 .paren) (t :: (rest ++ semicolon :: behind)) :=
    e ▸ hin.skipBlank (Or.inl hsemi)
  cases hd : declaration (t :: (rest ++ semicolon :: behind)) with
  | accepted d left =>
    have hleaves := declaration_leaves (Or.inl hsemi) hblank
    rw [hd] at hleaves
    obtain ⟨-, -, rfl⟩ | ⟨hne, -⟩ := hleaves
    · refine ⟨[d], [], declarations_accepted st e hb hk hd, iff_of_true (readsAsOne_accepted hd) ?_⟩
      rintro ⟨f, a, u, b, hrejected, -⟩
      rw [e, hd] at hrejected
      contradiction
    · exact absurd rfl (hne hsemi)
  | rejected f left =>
    -- a problem of its own, and further ones where the skip stops in a call
    have hstep := declarations_rejected st e hb hk hd
    obtain hskip | ⟨a, u, fewer, hleft, hu, ha, hfewer, hi⟩ := rejected_inside hsemi hblank hd
    · rw [hskip] at hstep
      have hone : ReadsAsOne [.node .error (st.position left) (skipDeclaration 0 left).leaves]
          [st.problem f] := Or.inr ⟨rfl, rfl⟩
      exact ⟨_, _, hstep, iff_of_true hone (not_resumesInCall (e ▸ hd) hskip)⟩
    · obtain ⟨trees, problems, hrest, hne⟩ := declarations_inside hsemi st hi
      obtain ⟨b, hstand⟩ := hi.reaches
      rw [hrest, Parsed.after_after] at hstep
      rw [hstand] at hleft
      refine ⟨_, _, hstep, iff_of_false ?_ ?_⟩
      · -- the problem of this declaration is followed by one from inside the call
        rintro (⟨-, h⟩ | ⟨-, h⟩)
        · contradiction
        · rw [List.singleton_append, List.length_cons, Nat.add_eq_right,
            List.length_eq_zero_iff] at h
          exact hne hfewer h
      · exact fun h => h ⟨f, a, u, b, by rw [e, hd, hleft], hu, ha⟩

end

/-- A block goes on behind the semicolon that ends a declaration. -/
theorem declarations_resumed (st : Setting) {row : Tokens} (hrow : Balanced false row)
    (hfilled : ∃ t ∈ row, t.kind ≠ .whitespace) {semicolon : Placed}
    (hsemi : semicolon.kind = .semicolon) (behind : Tokens) (n : Nat) :
    let shifted := behind.map (Placed.shift n)
    let block := declarations (st.shift n) (row ++ semicolon :: shifted)
    ∃ trees problems,
      block.result = trees ++ (declarations st behind).result.map (Tree.shift n) ∧
      block.problems = problems ++ (declarations st behind).problems ∧
      (ReadsAsOne trees problems ↔ ¬ResumesInCall row semicolon shifted) := by
  intro shifted block
  obtain ⟨trees, problems, e, hone⟩ := declarations_balanced hsemi (st.shift n) hrow hfilled
  obtain ⟨hresult, hproblems⟩ := declarations_shift st n behind
  refine ⟨trees, problems, ?_, ?_, hone⟩
  · rw [← hresult]
    exact congrArg Parsed.result e
  · rw [← hproblems]
    exact congrArg Parsed.problems e

/-- A token of some kind, without a text and a place. -/
def unwritten (index : Nat) (kind : TokenKind) : Placed := ⟨index, ⟨kind, "", .nowhere⟩⟩

/-- The end of a block, as it stands behind the brace: `d: e \x7d`. -/
def blockEnd : Tokens :=
  [unwritten 2 (.ident "d"), unwritten 3 .colon, unwritten 4 (.ident "e"),
    unwritten 5 (.closing .brace)]

/-- `p: f(+ \x7b ; \x7d)`, a declaration that goes wrong at the plus sign. -/
def nestedCall : Tokens :=
  [unwritten 2 (.ident "p"), unwritten 3 .colon, unwritten 4 (.function "f"), unwritten 5 .plus,
    unwritten 6 (.opening .brace), unwritten 7 .semicolon, unwritten 8 (.closing .brace),
    unwritten 9 (.closing .paren)]

theorem balanced_nestedCall : Balanced false nestedCall := by
  have braces : Balanced true [unwritten 6 (.opening .brace), unwritten 7 .semicolon,
      unwritten 8 (.closing .brace)] :=
    @Balanced.group true (unwritten 6 (.opening .brace)) (unwritten 8 (.closing .brace))
      [unwritten 7 .semicolon] [] .brace rfl rfl (.token rfl rfl nofun .nil) .nil
  exact .token rfl rfl nofun (.token rfl rfl nofun
    (@Balanced.group false (unwritten 4 (.function "f")) (unwritten 9 (.closing .paren))
      (unwritten 5 .plus :: [unwritten 6 (.opening .brace), unwritten 7 .semicolon,
        unwritten 8 (.closing .brace)]) [] .paren rfl rfl (.token rfl rfl nofun braces) .nil))

/-- It is one problem, since the semicolon in its braces is skipped; the block goes on behind it. -/
theorem declarations_resumed_nestedCall :
    let semicolon := unwritten 10 .semicolon
    let shifted := blockEnd.map (Placed.shift 9)
    let block := declarations ⟨"", 15, .nowhere⟩ (nestedCall ++ semicolon :: shifted)
    let rest := declarations ⟨"", 6, .nowhere⟩ blockEnd
    Balanced false nestedCall ∧ (∃ t ∈ nestedCall, t.kind ≠ .whitespace) ∧
      block.problems.length = 1 ∧ block.result.length = 3 ∧ rest.result.length = 2 ∧
      ∃ trees problems,
        block.result = trees ++ rest.result.map (Tree.shift 9) ∧
        block.problems = problems ++ rest.problems ∧
        (ReadsAsOne trees problems ↔ ¬ResumesInCall nestedCall semicolon shifted) := by
  intro semicolon shifted block rest
  have hfilled : ∃ t ∈ nestedCall, t.kind ≠ .whitespace := by decide
  have hproblems : block.problems.length = 1 := by decide +kernel
  have hblock : block.result.length = 3 := by decide +kernel
  have hrest : rest.result.length = 2 := by decide +kernel
  exact ⟨balanced_nestedCall, hfilled, hproblems, hblock, hrest,
    declarations_resumed ⟨"", 6, .nowhere⟩ balanced_nestedCall hfilled rfl blockEnd 9⟩

/-- `p: f(+; b: c;)`, a declaration that goes wrong at the plus sign as well. -/
def dividedCall : Tokens :=
  [unwritten 2 (.ident "p"), unwritten 3 .colon, unwritten 4 (.function "f"), unwritten 5 .plus,
    unwritten 6 .semicolon, unwritten 7 (.ident "b"), unwritten 8 .colon, unwritten 9 (.ident "c"),
    unwritten 10 .semicolon, unwritten 11 (.closing .paren)]

/-- The first semicolon in the call ends the skip: `b: c` is read as a declaration, and the parenthesis is
    a problem of its own. -/
theorem not_readsAsOne_dividedCall :
    let semicolon := unwritten 12 .semicolon
    let shifted := blockEnd.map (Placed.shift 11)
    let block := declarations ⟨"", 17, .nowhere⟩ (dividedCall ++ semicolon :: shifted)
    let rest := declarations ⟨"", 6, .nowhere⟩ blockEnd
    Balanced false dividedCall ∧ (∃ t ∈ dividedCall, t.kind ≠ .whitespace) ∧
      ¬∃ trees problems,
        block.result = trees ++ rest.result.map (Tree.shift 11) ∧
        block.problems = problems ++ rest.problems ∧ ReadsAsOne trees problems := by
  intro semicolon shifted block rest
  have hbalanced : Balanced false dividedCall := .token rfl rfl nofun (.token rfl rfl nofun
    (@Balanced.group false (unwritten 4 (.function "f")) (unwritten 11 (.closing .paren))
      [unwritten 5 .plus, unwritten 6 .semicolon, unwritten 7 (.ident "b"), unwritten 8 .colon,
        unwritten 9 (.ident "c"), unwritten 10 .semicolon] [] .paren rfl rfl
      (.token rfl rfl nofun (.token rfl rfl nofun (.token rfl rfl nofun (.token rfl rfl nofun
        (.token rfl rfl nofun (.token rfl rfl nofun .nil)))))) .nil))
  have hblock : block.problems.length = 2 := by decide +kernel
  have hrest : rest.problems.length = 0 := by decide +kernel
  refine ⟨hbalanced, by decide, ?_⟩
  rintro ⟨trees, problems, -, e, hone⟩
  -- both problems would be those of the row in front
  have hlength := congrArg List.length e
  rw [List.length_append, hblock, hrest] at hlength
  rcases hone with ⟨-, h⟩ | ⟨-, h⟩
  · rw [h, List.length_nil] at hlength
    omega
  · omega

end Grammar

end Stylesheet
