import Stylesheet.Proofs.Grammar.Alone
import Stylesheet.Proofs.Reading.QueryShape

/-!
# The language of media queries

What may stand between the keyword of a media rule and its block, as runs of tokens and what they say.
Blanks may stand between any two parts. A word that could be a qualifier is a medium if no other word
stands behind it, and then no feature may follow, since the `and` in front of the feature would be this
word (`QueryRun.medium`). Every run that the productions accept is one of these (`mediaPrelude_run`).
-/

namespace Stylesheet

/-- A feature as it is written, with the tree of its value. -/
structure FeatureForm where
  name : String
  value : Option Tree

/-- A query as it is written. -/
structure QueryForm where
  qualifier : Option Qualifier
  mediaType : Option String
  features : List FeatureForm

namespace Grammar

open Production Tokens Reading

/-- The value of a feature behind its colon, or nothing. -/
inductive ValueRun : Tokens → Option Tree → Prop
  | absent : ValueRun [] none
  | written {k : Placed} {b s left : Tokens} {v : Tree} (hk : k.kind = .colon) (hb : Blank b)
      (hv : value false s = .accepted v left) (hl : Blank left) : ValueRun (k :: (b ++ s)) (some v)

/-- `(name)` or `(name: value)`. -/
inductive FeatureRun : Tokens → FeatureForm → Prop
  | feature {o n c : Placed} {b d vs : Tokens} {name : String} {value : Option Tree}
      (ho : o.kind = .opening .paren) (hb : Blank b) (hn : n.kind = .ident name) (hd : Blank d)
      (hv : ValueRun vs value) (hc : c.kind = .closing .paren) :
      FeatureRun (o :: (b ++ n :: (d ++ (vs ++ [c])))) ⟨name, value⟩

/-- Features, each behind the word `and`. -/
inductive JoinedRun : Tokens → List FeatureForm → Prop
  | nil {b : Tokens} (hb : Blank b) : JoinedRun b []
  | cons {b d fs more : Tokens} {w : Placed} {f : FeatureForm} {others : List FeatureForm}
      (hb : Blank b) (hw : isAnd w.kind = true) (hd : Blank d) (hf : FeatureRun fs f)
      (hm : JoinedRun more others) : JoinedRun (b ++ w :: (d ++ (fs ++ more))) (f :: others)

/-- The word of a qualifier. -/
def qualifierWord : Qualifier → String
  | .only => "only"
  | .not => "not"

/-- A query that begins with a feature, with a medium, or with a qualifier and a medium. -/
inductive QueryRun : Tokens → QueryForm → Prop
  | feature {fs more : Tokens} {f : FeatureForm} {others : List FeatureForm} (hf : FeatureRun fs f)
      (hm : JoinedRun more others) : QueryRun (fs ++ more) ⟨none, none, f :: others⟩
  | medium {t : Placed} {more : Tokens} {name : String} {fs : List FeatureForm}
      (ht : t.kind = .ident name) (hand : sameWord name "and" = false)
      (halone : sameWord name "only" = true ∨ sameWord name "not" = true → fs = [])
      (hm : JoinedRun more fs) : QueryRun (t :: more) ⟨none, some name, fs⟩
  | qualified {t u : Placed} {b more : Tokens} {q : Qualifier} {word name : String}
      {fs : List FeatureForm} (ht : t.kind = .ident word) (hq : sameWord word (qualifierWord q) = true)
      (hb : Blank b) (hu : u.kind = .ident name) (hand : sameWord name "and" = false)
      (hm : JoinedRun more fs) : QueryRun (t :: (b ++ u :: more)) ⟨some q, some name, fs⟩

/-- Queries with commas between them. -/
inductive QueriesRun : Tokens → List QueryForm → Prop
  | last {b s : Tokens} {q : QueryForm} (hb : Blank b) (hq : QueryRun s q) : QueriesRun (b ++ s) [q]
  | cons {b s more : Tokens} {c : Placed} {q : QueryForm} {others : List QueryForm} (hb : Blank b)
      (hq : QueryRun s q) (hc : c.kind = .comma) (hm : QueriesRun more others) :
      QueriesRun (b ++ (s ++ c :: more)) (q :: others)

/-- What stands in front of the block of a media rule: queries, or nothing but blanks. -/
inductive PreludeRun : Tokens → List QueryForm → Prop
  | empty {b : Tokens} (hb : Blank b) : PreludeRun b []
  | queries {s : Tokens} {qs : List QueryForm} (h : QueriesRun s qs) : PreludeRun s qs

theorem Blank.nil : Blank [] := fun _ ht => absurd ht List.not_mem_nil

theorem Blank.append {b d : Tokens} (hb : Blank b) (hd : Blank d) : Blank (b ++ d) :=
  List.forall_mem_append.2 ⟨hb, hd⟩

theorem QueriesRun.blank {b s : Tokens} {qs : List QueryForm} (hb : Blank b) (h : QueriesRun s qs) :
    QueriesRun (b ++ s) qs := by
  cases h with
  | last hd hq =>
    rw [← List.append_assoc]
    exact .last (hb.append hd) hq
  | cons hd hq hc hm =>
    rw [← List.append_assoc]
    exact .cons (hb.append hd) hq hc hm

theorem PreludeRun.blank {b s : Tokens} {qs : List QueryForm} (hb : Blank b) (h : PreludeRun s qs) :
    PreludeRun (b ++ s) qs := by
  cases h with
  | empty hd => exact .empty (hb.append hd)
  | queries h => exact .queries (h.blank hb)

/-! ## What is accepted is in the language -/

variable {s rest : Tokens}

theorem bind_blank_eq_accepted {β : Type} {f : Unit → Production β} {a : β}
    (h : (blank >>= f) s = .accepted a rest) :
    ∃ b left, Blank b ∧ s = b ++ left ∧ f () left = .accepted a rest := by
  obtain ⟨b, hb, e⟩ := exists_blank s
  exact ⟨b, _, hb, e, h⟩

theorem featureValue_run {row : List Tree} {c : Placed} (hc : c.kind = .closing .paren)
    (h : featureValue s = .accepted row (c :: rest)) :
    ∃ vs value, s = vs ++ c :: rest ∧ ValueRun vs value := by
  cases s with
  | nil => cases h
  | cons t left =>
    rw [featureValue, bind_apply, take?_cons] at h
    split at h
    · rename_i colon between e
      split at e
      · rename_i ht
        cases e
        obtain ⟨b, s₁, hb, rfl, h₁⟩ := bind_blank_eq_accepted h
        obtain ⟨v, s₂, hv, h₂⟩ := bind_eq_accepted h₁
        obtain ⟨d, s₃, hd, rfl, h₃⟩ := bind_blank_eq_accepted h₂
        cases h₃
        obtain ⟨front, rfl⟩ := suffix_of_accepted (value_advances false) hv
        -- the value and the blanks behind it, in front of the bracket
        rw [← List.append_assoc] at hv
        have halone := (value_alone hc false (front ++ d) v d).1 hv
        exact ⟨t :: (b ++ (front ++ d)), some v, by simp, .written (eq_of_beq ht) hb halone hd⟩
      · cases e
        cases h
        exact ⟨[], none, rfl, .absent⟩
    · contradiction

theorem exists_ident {k : TokenKind} (h : k.isIdent = true) : ∃ name, k = .ident name := by
  cases k with
  | ident name => exact ⟨name, rfl⟩
  | _ => contradiction

theorem exists_qualifierWord {k : TokenKind} (h : isQualifier k = true) :
    ∃ word q, k = .ident word ∧ sameWord word (qualifierWord q) = true := by
  cases k with
  | ident word =>
    rcases Bool.or_eq_true_iff.1 h with h | h
    · exact ⟨word, .only, rfl, h⟩
    · exact ⟨word, .not, rfl, h⟩
  | _ => contradiction

theorem mediaFeature_run {t : Tree} (h : mediaFeature s = .accepted t rest) :
    ∃ fs f, s = fs ++ rest ∧ FeatureRun fs f := by
  obtain ⟨o, s₁, rfl, ho, h₁⟩ := bind_take_eq_accepted h
  obtain ⟨b, s₂, hb, rfl, h₂⟩ := bind_blank_eq_accepted h₁
  obtain ⟨n, s₃, rfl, hn, h₃⟩ := bind_take_eq_accepted h₂
  obtain ⟨d, s₄, hd, rfl, h₄⟩ := bind_blank_eq_accepted h₃
  obtain ⟨row, s₅, hvalue, h₅⟩ := bind_eq_accepted h₄
  obtain ⟨c, s₆, rfl, hc, h₆⟩ := bind_take_eq_accepted h₅
  cases h₆
  obtain ⟨vs, value, rfl, hv⟩ := featureValue_run (eq_of_beq hc) hvalue
  obtain ⟨name, hname⟩ := exists_ident hn
  exact ⟨_, _, by simp, .feature (eq_of_beq ho) hb hname hd hv (eq_of_beq hc)⟩

theorem furtherFeature_run {row : List Tree} (h : furtherFeature s = .accepted row rest) :
    ∃ w d fs f, s = w :: (d ++ (fs ++ rest)) ∧ isAnd w.kind = true ∧ Blank d ∧ FeatureRun fs f := by
  obtain ⟨w, s₁, rfl, hw, h₁⟩ := bind_take_eq_accepted h
  obtain ⟨d, s₂, hd, rfl, h₂⟩ := bind_blank_eq_accepted h₁
  obtain ⟨tree, s₃, hfeature, h₃⟩ := bind_eq_accepted h₂
  cases h₃
  obtain ⟨fs, f, rfl, hf⟩ := mediaFeature_run hfeature
  exact ⟨w, d, fs, f, rfl, hw, hd, hf⟩

theorem furtherFeatures_run {row : List Tree} (h : furtherFeatures s = .accepted row rest) :
    ∃ more fs, s = more ++ rest ∧ JoinedRun more fs := by
  fun_induction furtherFeatures s generalizing row rest with
  | case1 => contradiction
  | case2 s _ feature left hfirst _ ih =>
    obtain ⟨others, e, rfl⟩ := map_eq_accepted h
    obtain ⟨more, fs, rfl, hm⟩ := ih e
    obtain ⟨b, hb, es⟩ := exists_blank s
    obtain ⟨w, d, run, f, e₁, hw, hd, hf⟩ := furtherFeature_run hfirst
    refine ⟨_, _, ?_, .cons hb hw hd hf hm⟩
    rw [es, e₁]
    simp
  | case3 s =>
    cases h
    obtain ⟨b, hb, es⟩ := exists_blank s
    exact ⟨b, [], es, .nil hb⟩

/-- Behind a word that could be a qualifier stands no feature: without another word there is no `and`. -/
theorem furtherFeatures_alone {row : List Tree}
    (hn : (skipBlank s).startsWith TokenKind.isIdent = false)
    (h : furtherFeatures s = .accepted row rest) : ∃ more, s = more ++ rest ∧ JoinedRun more [] := by
  have hand : (skipBlank s).startsWith isAnd = false := by
    cases hk : skipBlank s with
    | nil => rfl
    | cons t left =>
      rw [hk, startsWith] at hn
      rw [startsWith]
      cases he : t.kind with
      | ident => rw [he] at hn; contradiction
      | _ => rfl
  obtain ⟨b, hb, es⟩ := exists_blank s
  rw [furtherFeatures_eq, hand] at h
  cases h
  exact ⟨b, es, .nil hb⟩

/-- A query, by the three ways in which it may begin. -/
theorem mediaQuery_run {t : Tree} (h : mediaQuery s = .accepted t rest) :
    ∃ b qs q, s = b ++ (qs ++ rest) ∧ Blank b ∧ QueryRun qs q := by
  obtain ⟨_, _, ha, h₁⟩ := bind_eq_accepted h
  cases ha
  obtain ⟨head, mid, hhead, h₂⟩ := bind_eq_accepted h₁
  obtain ⟨row, left, hmore, h₃⟩ := bind_eq_accepted h₂
  cases h₃
  obtain ⟨b, s₁, hb, rfl, hhead₁⟩ := bind_blank_eq_accepted hhead
  rw [bind_apply, ahead_apply] at hhead₁
  dsimp only at hhead₁
  split at hhead₁
  · obtain ⟨t, s₂, rfl, ht, hhead₂⟩ := bind_take_eq_accepted hhead₁
    obtain ⟨d, s₃, hd, rfl, hhead₃⟩ := bind_blank_eq_accepted hhead₂
    obtain ⟨u, s₄, rfl, hu, hhead₄⟩ := bind_take_eq_accepted hhead₃
    cases hhead₄
    obtain ⟨more, fs, rfl, hm⟩ := furtherFeatures_run hmore
    obtain ⟨word, q, hword, hq⟩ := exists_qualifierWord ht
    obtain ⟨name, hname, hand⟩ := ident_of_isMediaType hu
    exact ⟨b, _, _, by simp, hb, .qualified hword hq hd hname hand hm⟩
  · rename_i hqualified
    split at hhead₁
    · obtain ⟨t, s₂, rfl, ht, hhead₂⟩ := bind_take_eq_accepted hhead₁
      cases hhead₂
      obtain ⟨name, hname, hand⟩ := ident_of_isMediaType ht
      by_cases hq : isQualifier t.kind = true
      · have hn : (skipBlank mid).startsWith TokenKind.isIdent = false := by
          rw [startsQualified, hq, Bool.true_and] at hqualified
          exact Bool.eq_false_of_not_eq_true hqualified
        obtain ⟨more, rfl, hm⟩ := furtherFeatures_alone hn hmore
        exact ⟨b, t :: more, _, by simp, hb, .medium hname hand (fun _ => rfl) hm⟩
      · obtain ⟨more, fs, rfl, hm⟩ := furtherFeatures_run hmore
        refine ⟨b, t :: more, _, by simp, hb, .medium hname hand (fun h => absurd ?_ hq) hm⟩
        rw [hname]
        exact Bool.or_eq_true_iff.2 h
    · obtain ⟨feature, s₂, hfeature, hhead₂⟩ := bind_eq_accepted hhead₁
      cases hhead₂
      obtain ⟨fs, f, rfl, hf⟩ := mediaFeature_run hfeature
      obtain ⟨more, others, rfl, hm⟩ := furtherFeatures_run hmore
      exact ⟨b, _, _, by simp, hb, .feature hf hm⟩

/-- Queries behind one another: what the first leaves begins with a comma, or is left in the end. -/
theorem queries_run {t : Tree} {row : List Tree} {left : Tokens}
    (h : mediaQuery s = .accepted t left) (h' : furtherQueries left = .accepted row rest) :
    ∃ run qs, s = run ++ rest ∧ QueriesRun run qs := by
  obtain ⟨b, run, q, rfl, hb, hq⟩ := mediaQuery_run h
  fun_induction furtherQueries left generalizing b run q t row rest with
  | case1 =>
    cases h'
    exact ⟨b ++ run, [q], by simp, .last hb hq⟩
  | case2 => contradiction
  | case3 comma behind hc next left hn _ ih =>
    obtain ⟨others, e, rfl⟩ := map_eq_accepted h'
    obtain ⟨d, run', q', rfl, hd, hq'⟩ := mediaQuery_run hn
    obtain ⟨more, qs, e', hm⟩ := ih e d run' q' hn hd hq'
    refine ⟨_, _, ?_, .cons hb hq hc hm⟩
    rw [e']
    simp
  | case4 =>
    cases h'
    exact ⟨b ++ run, [q], by simp, .last hb hq⟩

theorem mediaPrelude_run {list brace : Tree} (h : mediaPrelude s = .accepted (list, brace) rest) :
    ∃ run t qs, s = run ++ t :: rest ∧ brace = t.leaf ∧ PreludeRun run qs := by
  obtain ⟨_, _, ha, h₁⟩ := bind_eq_accepted h
  cases ha
  obtain ⟨row, mid, hrow, h₂⟩ := bind_eq_accepted h₁
  obtain ⟨t, left, rfl, ht, h₃⟩ := bind_take_eq_accepted h₂
  cases h₃
  rw [mediaQueries, bind_apply, ahead_apply] at hrow
  dsimp only at hrow
  split at hrow
  · cases hrow
    exact ⟨[], t, [], rfl, rfl, .empty .nil⟩
  · obtain ⟨first, behind, hfirst, hrow₁⟩ := bind_eq_accepted hrow
    obtain ⟨others, left, hmore, hrow₂⟩ := bind_eq_accepted hrow₁
    cases hrow₂
    obtain ⟨run, qs, rfl, hrun⟩ := queries_run hfirst hmore
    exact ⟨run, t, qs, rfl, rfl, .queries hrun⟩

end Grammar

end Stylesheet
