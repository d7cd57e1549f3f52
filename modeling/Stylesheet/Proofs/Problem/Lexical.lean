import Stylesheet.Proofs.Problem.Message
import Stylesheet.Proofs.Token.Portion

/-!
# Problems of characters

Every lexeme reports at most one problem, which begins where the lexeme does. As lexemes lie side by
side, their problems stand in reading order, and so do the tokens that they give (`laidOut_tokens`).
-/

namespace Stylesheet

open Position

/-- Problems that begin one behind the other, or in one place. -/
def InReadingOrder (ps : List Problem) : Prop :=
  ps.Pairwise fun p q => p.span.start.le q.span.start = true

/-- All problems are found by one stage. -/
def AllOfClass (c : ProblemClass) (ps : List Problem) : Prop :=
  ∀ p ∈ ps, p.kind.problemClass = c

namespace AllOfClass

variable {c : ProblemClass}

theorem nil : AllOfClass c [] := fun _ h => absurd h List.not_mem_nil

theorem one {p : Problem} (h : p.kind.problemClass = c) : AllOfClass c [p] :=
  fun _ hq => List.mem_singleton.1 hq ▸ h

end AllOfClass

/-! ## Lexemes -/

theorem Lexeme.problems_class (source : String) (l : Lexeme) :
    AllOfClass .lexical (l.problems source) := by
  unfold Lexeme.problems
  split
  · split
    · exact .nil
    · exact .one rfl
  · exact .nil
  · split
    · exact .nil
    · exact .one rfl
  · exact .nil
  · exact .one rfl
  · exact .one rfl
  · split
    · exact .one rfl
    · exact .one rfl

theorem Lexeme.inReadingOrder_problems (source : String) {ls : List Lexeme}
    (h : ls.Pairwise fun l m => l.span.start.Before m.span.start) :
    InReadingOrder (ls.flatMap (Lexeme.problems source)) := by
  rw [InReadingOrder, List.pairwise_flatMap]
  refine ⟨fun l _ => List.pairwise_of_forall_mem_list ?_, h.imp ?_⟩
  · intro p hp q hq
    rw [Portion.span_of_mem_problems hp, Portion.span_of_mem_problems hq]
    exact le_refl _
  · intro l m hlm p hp q hq
    rw [Portion.span_of_mem_problems hp, Portion.span_of_mem_problems hq]
    exact hlm.le

/-- Every problem of a lexeme has what its message needs. -/
theorem Lexeme.problems_isComplete (source : String) (l : Lexeme) :
    ∀ p ∈ l.problems source, p.IsComplete source := by
  have one {kind : ProblemKind} {params : List (String × String)}
      (h : params.map Prod.fst = kind.template.places) :
      ∀ p ∈ [Problem.ofParams kind source l.span params], p.IsComplete source :=
    fun _ hp => List.mem_singleton.1 hp ▸ Problem.isComplete_ofParams h
  unfold Lexeme.problems
  split
  · split
    · exact fun _ hp => absurd hp List.not_mem_nil
    · exact one rfl
  · exact fun _ hp => absurd hp List.not_mem_nil
  · split
    · exact fun _ hp => absurd hp List.not_mem_nil
    · exact one rfl
  · exact fun _ hp => absurd hp List.not_mem_nil
  · exact one rfl
  · exact one rfl
  · split
    · exact one rfl
    · exact one rfl

namespace TokenStream

/-- Lexemes report nothing but their own problems, also where the nesting limit ends the work. -/
theorem exists_of_mem_problems {source : String} {limit : Nat} {blocks : List Block}
    {ls : List Lexeme} {p : Problem} (h : p ∈ (ofLexemes source limit blocks ls).problems) :
    ∃ l ∈ ls, p ∈ l.problems source := by
  induction ls generalizing blocks with
  | nil => exact absurd h List.not_mem_nil
  | cons l ls ih =>
    obtain e | ⟨blocks', given, -, e⟩ := ofLexemes_cons source limit blocks l ls
    · rw [e] at h
      exact absurd h List.not_mem_nil
    · rw [e] at h
      rcases List.mem_append.1 h with h | h
      · exact ⟨l, List.mem_cons_self, h⟩
      · obtain ⟨m, hm, hp⟩ := ih h
        exact ⟨m, List.mem_cons_of_mem l hm, hp⟩

end TokenStream

section

variable (source : String) (text : List Char) (options : Options)

theorem tokenize_class : AllOfClass .lexical (tokenize source text options).problems := by
  intro p hp
  rw [tokenize_problems] at hp
  obtain ⟨l, -, hl⟩ := TokenStream.exists_of_mem_problems hp
  exact l.problems_class source p hl

theorem tokenize_isComplete : ∀ p ∈ (tokenize source text options).problems, p.IsComplete source := by
  intro p hp
  rw [tokenize_problems] at hp
  obtain ⟨l, -, hl⟩ := TokenStream.exists_of_mem_problems hp
  exact l.problems_isComplete source p hl

variable {source text options}

theorem tokenize_limit {e : TooDeep} (h : (tokenize source text options).tooDeep = some e) :
    e.limit = options.maxNestingDepth := by
  rw [tokenize_tooDeep] at h
  obtain ⟨l, -, rfl⟩ := TokenStream.ofLexemes_tooDeep h
  rfl

theorem tokenize_inReadingOrder (h : (tokenize source text options).tooDeep = none) :
    InReadingOrder (tokenize source text options).problems := by
  obtain ⟨hd, e⟩ := tokenize_eq h
  rw [e, TokenStream.ofLexemes_problems hd]
  exact Lexeme.inReadingOrder_problems source (Lexeme.scan_pairwise _ _)

end

/-! ## Tokens -/

/-- From `p` on, every token begins behind the one in front of it, and the last one ends in front of
    `stop`. -/
def LaidOut (stop : Position) (p : Position) : List Token → Prop
  | [] => p.le stop = true
  | t :: ts => p.le t.span.start = true ∧ t.span.start.le t.span.stop = true ∧
    LaidOut stop t.span.stop ts

theorem LaidOut.mono {stop p q : Position} {ts : List Token} (hp : p.le q = true)
    (h : LaidOut stop q ts) : LaidOut stop p ts := by
  cases ts with
  | nil => exact le_trans hp h
  | cons t ts => exact ⟨le_trans hp h.1, h.2⟩

namespace Portion

theorem AllPlaced.tail {source : String} {problems : List Problem} {front : List Char}
    {portion : Portion} {portions : List Portion}
    (h : AllPlaced source problems front (portion :: portions)) :
    AllPlaced source problems (front ++ portion.chars) portions := by
  intro before p after e
  have hp := h (portion :: before) p after (by rw [e, List.cons_append])
  rwa [List.flatMap_cons, ← List.append_assoc] at hp

/-- The tokens of a row of portions stand one behind the other. -/
theorem laidOut_tokens {source : String} {problems : List Problem} {front : List Char}
    {portions : List Portion} (h : AllPlaced source problems front portions) :
    LaidOut (boundary (front ++ portions.flatMap chars) [])
      (boundary front (portions.flatMap chars)) (portions.filterMap token?) := by
  induction portions generalizing front with
  | nil =>
    rw [List.flatMap_nil, List.append_nil]
    exact le_refl _
  | cons portion portions ih =>
    have ih' := ih h.tail
    have hle := boundary_le front portion.chars (portions.flatMap chars)
    rw [List.append_assoc, ← List.flatMap_cons] at ih'
    rw [← List.flatMap_cons] at hle
    -- only a token stands in the row; any other portion moves its place on
    cases portion with
    | token t =>
      obtain ⟨-, -, hspan⟩ := h [] (.token t) portions rfl
      rw [List.flatMap_nil, List.append_nil, spanIn, ← List.flatMap_cons] at hspan
      rw [List.filterMap_cons]
      refine ⟨?_, ?_, ?_⟩
      · rw [hspan]
        exact le_refl _
      · rw [hspan]
        exact hle
      · rw [hspan]
        exact ih'
    | comment text => exact ih'.mono hle
    | markupMark text => exact ih'.mono hle
    | dropped c => exact ih'.mono hle

end Portion

/-- A token of a row of portions has a text, and stands where that is. -/
theorem Portion.AllPlaced.token {source : String} {problems : List Problem} {front : List Char}
    {portions : List Portion} (h : AllPlaced source problems front portions) {t : Token}
    (ht : t ∈ portions.filterMap token?) :
    t.kind ≠ .eof ∧ t.text ≠ "" ∧ ∃ front behind, t.span = (Portion.token t).spanIn front behind := by
  obtain ⟨portion, hp, htoken⟩ := List.mem_filterMap.1 ht
  obtain ⟨before, after, hsplit⟩ := List.append_of_mem hp
  have hplaced := h before portion after hsplit
  cases portion with
  | token u =>
    cases htoken
    obtain ⟨hk, htext, hspan⟩ := hplaced
    exact ⟨hk, htext, _, _, hspan⟩
  | _ => contradiction

section

variable {source : String} {text : List Char} {options : Options}
  (h : (tokenize source text options).tooDeep = none)
include h

/-- The tokens of a text are those of its portions, and an `eof` at its end. -/
theorem exists_portions :
    ∃ (portions : List Portion) (problems : List Problem), portions.flatMap Portion.chars = text ∧
      (tokenize source text options).tokens =
        portions.filterMap Portion.token? ++ [TokenStream.eofAt (boundary text [])] ∧
      Portion.AllPlaced source problems [] portions := by
  obtain ⟨hd, e⟩ := tokenize_eq h
  rw [e, lexemeEnd_eq]
  obtain ⟨portions, ht, htokens, hps⟩ := Portion.tiles_scan
    (fun b hb => absurd hb List.not_mem_nil) (not_splitsLineEnd_nil text)
    (Portion.reported_scan source .start text) hd
  exact ⟨portions, _, ht, congrArg (· ++ [TokenStream.eofAt (boundary text [])]) htokens, hps⟩

/-- The tokens of a text stand one behind the other, and an `eof` at the end of the text ends them. -/
theorem tokenize_laidOut :
    ∃ ts, (tokenize source text options).tokens = ts ++ [TokenStream.eofAt (boundary text [])] ∧
      (∀ t ∈ ts, t.kind ≠ .eof) ∧ LaidOut (boundary text []) .start ts := by
  obtain ⟨portions, problems, ht, e, hps⟩ := exists_portions h
  have hl := Portion.laidOut_tokens hps
  rw [List.nil_append, ht] at hl
  exact ⟨_, e, fun t ht => (hps.token ht).1, hl⟩

/-- Every token but `eof` takes up room. -/
theorem tokenize_filled : ∀ t ∈ (tokenize source text options).tokens, t.kind ≠ .eof →
    t.span.start.Before t.span.stop := by
  obtain ⟨portions, problems, -, e, hps⟩ := exists_portions h
  intro t ht hk
  rw [e] at ht
  rcases List.mem_append.1 ht with ht | ht
  · obtain ⟨-, htext, front, behind, hspan⟩ := hps.token ht
    rw [hspan]
    exact boundary_before _ (fun e => htext (String.toList_eq_nil_iff.1 e)) _
  · rw [List.mem_singleton.1 ht] at hk
    contradiction

end

end Stylesheet
