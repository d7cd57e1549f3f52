import Stylesheet.Proofs.Grammar.Faults
import Stylesheet.Proofs.Problem.Lexical
import Stylesheet.Proofs.Tree.Stop

/-!
# Problems of the grammar in reading order

The parser reports a fault before it goes on behind it, and never goes back. So what is reported
between two places of the input begins between them (`Reports`), and where one part of the input
follows another, so do their problems (`Reports.append`). All of them are faults, which are problems of
the grammar and have what their messages need.
-/

namespace Stylesheet

namespace Setting

/-- Where the next token begins, or where the tokens end. -/
def front (st : Setting) (s : Tokens) : Position := (s.place?.getD st.stopSpan).start

theorem problem_class (st : Setting) (f : Fault) :
    (st.problem f).kind.problemClass = .syntactic := by
  change f.cause.kind.problemClass = .syntactic
  cases f.cause <;> rfl

theorem problem_isComplete (st : Setting) (f : Fault) : (st.problem f).IsComplete st.source := by
  refine Problem.isComplete_ofParams ?_
  cases f.cause <;> rfl

end Setting

namespace Grammar

open Production Tokens

/-- Every token ends where it begins or behind that, and the next one begins there or behind. -/
def Laid (st : Setting) (s : Tokens) : Prop :=
  ∀ t rest, t :: rest <:+ s → t.token.span.start.le t.token.span.stop = true ∧
    t.token.span.stop.le (st.front rest) = true

section

variable {st : Setting} {s mid rest : Tokens} {ps qs : List Problem}

theorem Laid.of_suffix (h : Laid st s) (hr : rest <:+ s) : Laid st rest :=
  fun t r hs => h t r (hs.trans hr)

theorem Laid.front_le (h : Laid st s) (hr : rest <:+ s) :
    (st.front s).le (st.front rest) = true := by
  induction s with
  | nil =>
    rw [List.suffix_nil.1 hr]
    exact Position.le_refl _
  | cons t s ih =>
    rcases List.suffix_cons_iff.1 hr with rfl | hr
    · exact Position.le_refl _
    · obtain ⟨hspan, hstop⟩ := h t s (List.suffix_refl _)
      have hs := ih (h.of_suffix (List.suffix_cons t s)) hr
      exact Position.le_trans hspan (Position.le_trans hstop hs)

/-- What is reported from `s` up to what is left: faults, in reading order, that begin in between. -/
structure Reports (st : Setting) (s rest : Tokens) (ps : List Problem) : Prop where
  faults : ∀ p ∈ ps, ∃ f, p = st.problem f
  ordered : InReadingOrder ps
  between : ∀ p ∈ ps, (st.front s).le p.span.start = true ∧
    p.span.start.le (st.front rest) = true
  front_le : (st.front s).le (st.front rest) = true

namespace Reports

theorem nil (h : Laid st s) (hr : rest <:+ s) : Reports st s rest [] where
  faults := fun _ hp => absurd hp List.not_mem_nil
  ordered := List.Pairwise.nil
  between := fun _ hp => absurd hp List.not_mem_nil
  front_le := h.front_le hr

/-- One part of the input behind the other. -/
theorem append (hp : Reports st s mid ps) (hq : Reports st mid rest qs) :
    Reports st s rest (ps ++ qs) where
  faults := by
    intro p h
    rcases List.mem_append.1 h with h | h
    · exact hp.faults p h
    · exact hq.faults p h
  ordered := List.pairwise_append.2 ⟨hp.ordered, hq.ordered, fun p hp' q hq' =>
    Position.le_trans (hp.between p hp').2 (hq.between q hq').1⟩
  between := by
    intro p h
    rcases List.mem_append.1 h with h | h
    · exact ⟨(hp.between p h).1, Position.le_trans (hp.between p h).2 hq.front_le⟩
    · exact ⟨Position.le_trans hp.front_le (hq.between p h).1, (hq.between p h).2⟩
  front_le := Position.le_trans hp.front_le hq.front_le

/-- Nothing is reported in front of `mid`. -/
theorem skip (h : Laid st s) (hm : mid <:+ s) (hp : Reports st mid rest ps) :
    Reports st s rest ps :=
  (nil h hm).append hp

/-- One fault in between. -/
theorem one {f : Fault} (hs : (st.front s).le (st.problem f).span.start = true)
    (hr : (st.problem f).span.start.le (st.front rest) = true) :
    Reports st s rest [st.problem f] where
  faults := fun _ hq => ⟨f, List.mem_singleton.1 hq⟩
  ordered := List.pairwise_singleton _ _
  between := fun _ hq => List.mem_singleton.1 hq ▸ ⟨hs, hr⟩
  front_le := Position.le_trans hs hr

/-- A fault at a token that was gone past, or at the next one. -/
theorem fault (h : Laid st s) {f : Fault} {u : Tokens} (hr : rest <:+ u) (hu : u <:+ s)
    (hp : f.place = u.place?) : Reports st s rest [st.problem f] := by
  have hstart : (st.problem f).span.start = st.front u := by
    change (f.place.getD st.stopSpan).start = _
    rw [hp]
    rfl
  refine one ?_ ?_
  · rw [hstart]
    exact h.front_le hu
  · rw [hstart]
    exact (h.of_suffix hu).front_le hr

/-- A production that stops, and what is skipped behind it. -/
theorem stop {α : Type} {p : Production α} (hp : Points p) (h : Laid st s) {f : Fault}
    (he : p s = .rejected f mid) (hr : rest <:+ mid) : Reports st s rest [st.problem f] := by
  obtain ⟨u, hm, hu, hplace⟩ := hp.stop he
  exact fault h (hr.trans hm) hu hplace

end Reports

/-! ## Blocks -/

theorem reports_declarations (h : Laid st s) :
    Reports st s (declarations st s).rest (declarations st s).problems := by
  fun_induction declarations st s with
  | case1 s => exact .fault h (List.suffix_refl _) List.nil_suffix rfl
  | case2 s _ t rest hs _ _ =>
    exact .nil h ((List.suffix_cons t rest).trans (suffix_of_skipBlank hs))
  | case3 s _ t rest hs _ _ _ ih =>
    have hr := (List.suffix_cons t rest).trans (suffix_of_skipBlank hs)
    exact (ih (h.of_suffix hr)).skip h hr
  | case4 s _ t rest hs _ _ _ d left hd _ ih =>
    have hr := (suffix_of_accepted declaration_advances hd).trans (suffix_of_skipBlank hs)
    exact (ih (h.of_suffix hr)).skip h hr
  | case5 s _ t rest hs _ _ _ f left hd _ ih =>
    have ht := suffix_of_skipBlank hs
    have hl : left <:+ t :: rest := by
      have ha := declaration_advances (t :: rest)
      rwa [hd] at ha
    have hskip := skipDeclaration_suffix left 0
    exact ((Reports.stop Points.declaration (h.of_suffix ht) hd hskip).skip h ht).append
      (ih (h.of_suffix (hskip.trans (hl.trans ht))))

theorem reports_rule (h : Laid st s) : Reports st s (rule st s).rest (rule st s).problems := by
  unfold rule
  split
  · rename_i brace left e
    have hl := suffix_of_accepted rulePrelude_advances e
    exact (reports_declarations (h.of_suffix hl)).skip h hl
  · rename_i f left e
    exact .stop Points.rulePrelude h e (skipRule_suffix left 0)

theorem reports_strayToken {t : Placed} (h : Laid st (t :: rest)) (expected : String) :
    Reports st (t :: rest) (strayToken st expected t rest).rest
      (strayToken st expected t rest).problems :=
  .fault h (List.suffix_cons t rest) (List.suffix_refl _) rfl

theorem reports_mediaBlock (h : Laid st s) :
    Reports st s (mediaBlock st s).rest (mediaBlock st s).problems := by
  fun_induction mediaBlock st s with
  | case1 s => exact .fault h (List.suffix_refl _) List.nil_suffix rfl
  | case2 s _ t rest hs =>
    exact .nil h ((List.suffix_cons t rest).trans (suffix_of_skipBlank hs))
  | case3 s _ t rest hs _ _ _ p _ ih =>
    have hr : p.rest <:+ s := (unknownAtRule_suffix t rest).trans
      ((List.suffix_cons t rest).trans (suffix_of_skipBlank hs))
    exact (ih (h.of_suffix hr)).skip h hr
  | case4 s _ t rest hs _ _ _ _ p _ ih =>
    have ht := suffix_of_skipBlank hs
    exact ((reports_strayToken (h.of_suffix ht) "rule").skip h ht).append
      (ih (h.of_suffix ((List.suffix_cons t rest).trans ht)))
  | case5 s _ t rest hs _ _ _ _ p _ _ =>
    have ht := suffix_of_skipBlank hs
    exact (reports_rule (h.of_suffix ht)).skip h ht
  | case6 s _ t rest hs _ _ _ _ p _ _ ih =>
    have ht := suffix_of_skipBlank hs
    exact ((reports_rule (h.of_suffix ht)).skip h ht).append
      (ih (h.of_suffix ((rule_suffix st (t :: rest)).trans ht)))

/-! ## Statements -/

/-- A missing semicolon is reported right behind the address, which stands in front of all that
    follows. -/
theorem reports_missing (h : Laid st s) {trees : List Tree} {missing : Option Fault}
    (e : namespaceContent s = .accepted (trees, missing) rest) :
    Reports st s rest (missing.map st.problem).toList := by
  cases missing with
  | none => exact .nil h (suffix_of_accepted namespaceContent_advances e)
  | some f =>
    obtain ⟨t, behind, ht, hb, hp⟩ := namespaceContent_semicolon e
    obtain ⟨hspan, hstop⟩ := h t behind ht
    have hstart : (st.problem f).span.start = t.token.span.stop := by
      change (f.place.getD st.stopSpan).start = _
      rw [hp]
      rfl
    refine .one ?_ ?_
    · rw [hstart]
      exact Position.le_trans (h.front_le ht) hspan
    · rw [hstart]
      have hbehind := h.of_suffix ((List.suffix_cons t behind).trans ht)
      exact Position.le_trans hstop (hbehind.front_le hb)

theorem reports_atRule (keyword : Placed) (name : String) (h : Laid st s) :
    Reports st s (atRule st keyword name s).rest (atRule st keyword name s).problems := by
  have broken {α : Type} {p : Production α} (hp : Points p) {r left : Tokens} {f : Fault}
      (hr : r <:+ s) (e : p r = .rejected f left) :
      Reports st s (brokenAtRule st keyword f left).rest (brokenAtRule st keyword f left).problems :=
    (Reports.stop hp (h.of_suffix hr) e (skipStatement_suffix left 0)).skip h hr
  unfold atRule
  split
  · split
    · rename_i trees missing left e
      exact reports_missing h e
    · rename_i f left e
      exact broken Points.namespaceContent (List.suffix_refl s) e
  · split
    · split
      · rename_i brace left e
        have hl := suffix_of_accepted fontFaceBrace_advances e
        exact (reports_declarations (h.of_suffix hl)).skip h hl
      · rename_i f left e
        exact broken Points.fontFaceBrace (List.suffix_refl s) e
    · split
      · split
        · rename_i queries brace left e
          have hl := (suffix_of_accepted mediaPrelude_advances e).trans (skipBlank_suffix s)
          exact (reports_mediaBlock (h.of_suffix hl)).skip h hl
        · rename_i f left e
          exact broken Points.mediaPrelude (skipBlank_suffix s) e
      · exact .nil h (unknownAtRule_suffix keyword s)

theorem reports_statement {t : Placed} (h : Laid st (t :: rest)) :
    Reports st (t :: rest) (statement st t rest).rest (statement st t rest).problems := by
  have hr := List.suffix_cons t rest
  unfold statement
  split
  · exact (reports_atRule t _ (h.of_suffix hr)).skip h hr
  · split
    · exact reports_strayToken h "rule or at-rule"
    · exact reports_rule h

theorem reports_statements (h : Laid st s) :
    Reports st s (statements st s).rest (statements st s).problems := by
  fun_induction statements st s with
  | case1 s => exact .nil h List.nil_suffix
  | case2 s _ t rest hs p _ ih =>
    have ht := suffix_of_skipBlank hs
    have hp : p.rest <:+ s := (statement_suffix st t rest).trans ((List.suffix_cons t rest).trans ht)
    exact ((reports_statement (h.of_suffix ht)).skip h ht).append (ih (h.of_suffix hp))

end

/-! ## The tokens of a text -/

theorem laid_of_laidOut (st : Setting) {s : Tokens} {p : Position}
    (h : LaidOut st.stopSpan.start p (s.map Placed.token)) :
    p.le (st.front s) = true ∧ Laid st s := by
  induction s generalizing p with
  | nil =>
    refine ⟨h, fun t rest hs => ?_⟩
    exact absurd (List.suffix_nil.1 hs) (List.cons_ne_nil t rest)
  | cons t s ih =>
    obtain ⟨hp, hspan, hs⟩ := h
    obtain ⟨hstop, hlaid⟩ := ih hs
    refine ⟨hp, fun u rest hu => ?_⟩
    rcases List.suffix_cons_iff.1 hu with e | hu
    · obtain ⟨rfl, rfl⟩ := List.cons.inj e
      exact ⟨hspan, hstop⟩
    · exact hlaid u rest hu

end Grammar

open Grammar in
/-- What the parser reports for the tokens of a text: problems of the grammar, in reading order, that
    have what their messages need. -/
theorem reports_tokenize {source : String} {text : List Char} {options : Options}
    (h : (tokenize source text options).tooDeep = none) :
    let problems := (parseTokens source (tokenize source text options).tokens).problems
    AllOfClass .syntactic problems ∧ InReadingOrder problems ∧
      ∀ p ∈ problems, p.IsComplete source := by
  obtain ⟨ts, e, hts, hlaid⟩ := tokenize_laidOut h
  rw [e]
  generalize hstop : TokenStream.eofAt (Position.boundary text []) = stop
  have hk : stop.kind = .eof := hstop ▸ rfl
  have hs : Laid (setting source (ts ++ [stop])) (numbered (ts ++ [stop])) := by
    refine (laid_of_laidOut _ (p := .start) ?_).2
    rw [setting_append hts hk, numbered_append_eof hts hk, ← hstop]
    exact hlaid
  have hfaults := (reports_statements hs).faults
  refine ⟨fun p hp => ?_, (reports_statements hs).ordered, fun p hp => ?_⟩
  · obtain ⟨f, rfl⟩ := hfaults p hp
    exact Setting.problem_class _ f
  · obtain ⟨f, rfl⟩ := hfaults p hp
    exact Setting.problem_isComplete _ f

end Stylesheet
