import Stylesheet.Proofs.Problem.Lexical

/-!
# The nesting limit

A limit only cuts the work short. Under a smaller limit the problems are the first ones of those found
under a larger one, a text that is read to its end is read in the same way, and a text that is nested
too deeply is so from an earlier place on (`tokenize_limit_le`). No text has more blocks than
characters, so a limit as large as the text is never reached (`tokenize_tooDeep_eq_none`).
-/

namespace Stylesheet

namespace TokenStream

/-! ## Two limits -/

/-- `a` is what a limit leaves of the stream `b`, which is read with the same limit or a larger one. -/
structure CutsShort (limit : Nat) (a b : TokenStream) : Prop where
  problems : a.problems <+: b.problems
  finished : a.tooDeep = none → b = a
  tooDeep : ∀ e, b.tooDeep = some e →
    ∃ d, a.tooDeep = some d ∧ d.limit = limit ∧ d.position.le e.position = true

/-- What stands in front of both is read before the limit is reached. -/
theorem CutsShort.onto {limit : Nat} {a b : TokenStream} (h : CutsShort limit a b)
    (tokens : List Token) (problems : List Problem) :
    CutsShort limit (a.onto tokens problems) (b.onto tokens problems) where
  problems := (List.prefix_append_right_inj problems).2 h.problems
  finished := fun hn => by rw [h.finished hn]
  tooDeep := h.tooDeep

/-- As long as the smaller limit is not reached, both take the same steps; where it is reached, the
    other one has all lexemes from there on still in front of it. -/
theorem ofLexemes_cutsShort (source : String) {low high : Nat} (h : low ≤ high)
    (blocks : List Block) {ls : List Lexeme}
    (hl : ls.Pairwise fun l m => l.span.start.Before m.span.start) :
    CutsShort low (ofLexemes source low blocks ls) (ofLexemes source high blocks ls) := by
  induction ls generalizing blocks with
  | nil => exact ⟨List.prefix_refl [], fun _ => rfl, nofun⟩
  | cons l ls ih =>
    obtain ⟨hfirst, hl⟩ := List.pairwise_cons.1 hl
    cases ho : l.opens? with
    | none =>
      rw [ofLexemes_of_opens_none ho, ofLexemes_of_opens_none ho]
      exact (ih _ hl).onto _ _
    | some bracket =>
      by_cases hlow : low ≤ blocks.length
      -- nothing more is read, and the larger limit is reached at this lexeme or behind it
      · rw [ofLexemes_of_le ho hlow]
        refine ⟨List.nil_prefix, nofun, fun e he => ⟨_, rfl, rfl, ?_⟩⟩
        obtain ⟨m, hm, rfl⟩ := ofLexemes_tooDeep he
        rcases List.mem_cons.1 hm with rfl | hm
        · exact Position.le_refl _
        · exact (hfirst m hm).le
      · rw [ofLexemes_of_lt ho (by omega), ofLexemes_of_lt ho (by omega)]
        exact (ih _ hl).onto _ _

/-! ## Large limits -/

theorem length_close_le (l : Lexeme) (blocks : List Block) :
    (close l blocks).length ≤ blocks.length := by
  cases blocks with
  | nil => exact Nat.le_refl _
  | cons b outer =>
    rw [close]
    split
    · exact Nat.le_succ _
    · exact Nat.le_refl _

/-- Every lexeme opens one block at most. -/
theorem ofLexemes_tooDeep_eq_none (source : String) {limit : Nat} {blocks : List Block}
    {ls : List Lexeme} (h : blocks.length + ls.length ≤ limit) :
    (ofLexemes source limit blocks ls).tooDeep = none := by
  induction ls generalizing blocks with
  | nil => rfl
  | cons l ls ih =>
    rw [List.length_cons] at h
    cases ho : l.opens? with
    | none =>
      have := length_close_le l blocks
      rw [ofLexemes_of_opens_none ho]
      exact ih (by omega)
    | some bracket =>
      rw [ofLexemes_of_lt ho (by omega)]
      refine ih ?_
      rw [List.length_cons]
      omega

end TokenStream

/-- Every lexeme has at least one character. -/
theorem Lexeme.length_scan_le (p : Position) (cs : List Char) : (scan p cs).length ≤ cs.length := by
  fun_induction scan p cs with
  | case1 => exact Nat.le_refl _
  | case2 p c rest h behind text ih =>
    rw [List.length_cons, List.length_cons]
    exact Nat.succ_le_succ (Nat.le_trans ih h)

/-- No text is nested more deeply than it is long. -/
theorem tokenize_tooDeep_eq_none (source : String) {text : List Char} {options : Options}
    (h : text.length ≤ options.maxNestingDepth) : (tokenize source text options).tooDeep = none := by
  rw [tokenize_tooDeep]
  apply TokenStream.ofLexemes_tooDeep_eq_none
  rw [List.length_nil, Nat.zero_add]
  exact Nat.le_trans (Lexeme.length_scan_le .start text) h

/-- A smaller limit finds the first problems of those that a larger one finds. A text which it reads to
    its end is read by the larger one with the same tokens and the same problems; a text which is nested
    too deeply for the larger one is so for it, and from no later place on. A limit that is as large as
    the text reads it to its end. -/
theorem tokenize_limit_le (source : String) (text : List Char) {low high : Options}
    (h : low.maxNestingDepth ≤ high.maxNestingDepth) :
    let a := tokenize source text low
    let b := tokenize source text high
    a.problems <+: b.problems ∧
      (a.tooDeep = none → b.tooDeep = none ∧ b.tokens = a.tokens ∧ b.problems = a.problems) ∧
      (∀ e, b.tooDeep = some e → ∃ d, a.tooDeep = some d ∧ d.limit = low.maxNestingDepth ∧
        d.position.le e.position = true) ∧
      ∀ options : Options, text.length ≤ options.maxNestingDepth →
        (tokenize source text options).tooDeep = none := by
  intro a b
  have hc := TokenStream.ofLexemes_cutsShort source h [] (Lexeme.scan_pairwise .start text)
  refine ⟨?_, ?_, ?_, fun _ => tokenize_tooDeep_eq_none source⟩
  · rw [tokenize_problems, tokenize_problems]
    exact hc.problems
  · intro hn
    have e : b = a := by
      show tokenize source text high = tokenize source text low
      rw [tokenize, tokenize, hc.finished (by rw [← tokenize_tooDeep]; exact hn)]
    rw [e]
    exact ⟨hn, rfl, rfl⟩
  · intro e he
    rw [tokenize_tooDeep] at he
    rw [tokenize_tooDeep]
    exact hc.tooDeep e he

/-- A stray character and three blocks, none of which is closed. -/
def deepText : List Char := "^(\x7b[".toList

/-- Three blocks are too many for both limits, and the smaller one ends the work at the second. -/
theorem tokenize_limit_le_deepText :
    (tokenize "deep.css" deepText ⟨1, true⟩).problems <+:
        (tokenize "deep.css" deepText ⟨2, true⟩).problems ∧
      (tokenize "deep.css" deepText ⟨2, true⟩).tooDeep = some ⟨2, ⟨1, 4⟩⟩ ∧
      (∃ d, (tokenize "deep.css" deepText ⟨1, true⟩).tooDeep = some d ∧ d.limit = 1 ∧
        d.position.le ⟨1, 4⟩ = true) ∧
      (tokenize "deep.css" deepText ⟨4, true⟩).tooDeep = none := by
  have hhigh : (tokenize "deep.css" deepText ⟨2, true⟩).tooDeep = some ⟨2, ⟨1, 4⟩⟩ := by
    decide +kernel
  obtain ⟨hproblems, -, hdeep, hlong⟩ :=
    tokenize_limit_le "deep.css" deepText
      (show (⟨1, true⟩ : Options).maxNestingDepth ≤ (⟨2, true⟩ : Options).maxNestingDepth by decide)
  exact ⟨hproblems, hhigh, hdeep _ hhigh, hlong ⟨4, true⟩ (by decide)⟩

end Stylesheet
