import Stylesheet.Proofs.Token.Stream

/-!
# The tokens in the text

A text for which there are tokens is a row of portions with nothing in between: tokens, comments,
markup marks and dropped characters (`tokenize_portions`). Every token is where its span says, counted
in lines and columns of the text itself (`Position.boundary`), and every dropped character is
reported once, where it stands.
-/

namespace Stylesheet

open Position Lexeme

/-- A stretch of a text: a token, or something that gives no token. -/
inductive Portion where
  | token (t : Token)
  | comment (text : List Char)
  | markupMark (text : List Char)
  | dropped (c : Char)

/-- The problem of a dropped character. -/
def droppedProblem (source : String) (c : Char) (span : Span) : Problem :=
  if c = '\\' then .ofParams .badEscape source span []
  else .ofParams .unexpectedCharacter source span [("character", c.toString)]

/-- Whether a problem says that the character at `p` was dropped. -/
def Problem.dropsAt (p : Position) (problem : Problem) : Bool :=
  (problem.kind == .unexpectedCharacter || problem.kind == .badEscape) && problem.span.start == p

namespace Portion

def chars : Portion → List Char
  | token t => t.text.toList
  | comment text => text
  | markupMark text => text
  | dropped c => [c]

def token? : Portion → Option Token
  | token t => some t
  | _ => none

/-- From the front of a text to its back, where a portion begins and where it ends. -/
def spanIn (front behind : List Char) (portion : Portion) : Span :=
  ⟨boundary front (portion.chars ++ behind), boundary (front ++ portion.chars) behind⟩

/-- What a portion between `front` and `behind` is. -/
def Placed (source : String) (problems : List Problem) (front behind : List Char)
    (portion : Portion) : Prop :=
  match portion with
  | token t => t.kind ≠ .eof ∧ t.text ≠ "" ∧ t.span = portion.spanIn front behind
  | comment text => IsComment text behind
  | markupMark text => text ∈ markupMarks
  | dropped c =>
    problems.filter (Problem.dropsAt (portion.spanIn front behind).start) =
      [droppedProblem source c (portion.spanIn front behind)]

/-- Every portion of a row that begins behind `front` is what it should be. -/
def AllPlaced (source : String) (problems : List Problem) (front : List Char)
    (portions : List Portion) : Prop :=
  ∀ before portion after, portions = before ++ portion :: after →
    portion.Placed source problems (front ++ before.flatMap chars) (after.flatMap chars)

section

variable {source : String} {problems : List Problem} {front behind : List Char}

theorem allPlaced_nil : AllPlaced source problems front [] := by
  intro before portion after e
  simp at e

theorem allPlaced_cons {portion : Portion} {portions : List Portion}
    (h : portion.Placed source problems front (portions.flatMap chars))
    (hs : AllPlaced source problems (front ++ portion.chars) portions) :
    AllPlaced source problems front (portion :: portions) := by
  intro before p after e
  cases before with
  | nil =>
    obtain ⟨rfl, rfl⟩ := List.cons.inj e
    rw [List.flatMap_nil, List.append_nil]
    exact h
  | cons q before =>
    obtain ⟨rfl, e'⟩ := List.cons.inj e
    rw [List.flatMap_cons, ← List.append_assoc]
    exact hs before p after e'

/-- `tokens` are the tokens of `rest`, behind `front`. -/
def Tiles (source : String) (problems : List Problem) (front rest : List Char)
    (tokens : List Token) : Prop :=
  ∃ portions : List Portion, portions.flatMap chars = rest ∧ tokens = portions.filterMap token? ∧
    AllPlaced source problems front portions

theorem tiles_nil : Tiles source problems front [] [] := ⟨[], rfl, rfl, allPlaced_nil⟩

theorem Tiles.cons {portion : Portion} {tokens : List Token}
    (hp : portion.Placed source problems front behind)
    (h : Tiles source problems (front ++ portion.chars) behind tokens) :
    Tiles source problems front (portion.chars ++ behind) (portion.token?.toList ++ tokens) := by
  obtain ⟨portions, rfl, rfl, hps⟩ := h
  refine ⟨portion :: portions, List.flatMap_cons, ?_, allPlaced_cons hp hps⟩
  rw [List.filterMap_cons]
  cases portion.token? <;> rfl

/-! ## One portion for each lexeme

Where a quoted address begins, one portion takes the lexemes of the whole address. -/

/-- Where a lexeme is dropped, the problems say so once. -/
def Reported (source : String) (problems : List Problem) (l : Lexeme) : Prop :=
  ∀ c, l.kind = .stray c →
    problems.filter (Problem.dropsAt l.span.start) = [droppedProblem source c l.span]

theorem spanIn_eq {l : Lexeme} (hs : ¬ SplitsLineEnd front (l.text.toList ++ behind))
    (hl : l.LiesAt front behind) {portion : Portion} (he : portion.chars = l.text.toList) :
    l.span = portion.spanIn front behind := by
  rw [hl.span, spanIn, he, after_eq_boundary hs, after_eq_boundary hl.noSplit]

/-- A lexeme that stands by itself, as a portion of the text. -/
theorem exists_portion {l : Lexeme} (hs : ¬ SplitsLineEnd front (l.text.toList ++ behind))
    (hl : l.LiesAt front behind) (hr : Reported source problems l) :
    ∃ portion : Portion, portion.chars = l.text.toList ∧ portion.token? = l.token? ∧
      portion.Placed source problems front behind := by
  have hd := hl.describes
  have hne : l.text ≠ "" := by
    intro e
    exact hl.ne_nil (by rw [e]; rfl)
  have token {k : TokenKind} (hk : k ≠ .eof) (ht : l.token? = some ⟨k, l.text, l.span⟩) :
      ∃ portion : Portion, portion.chars = l.text.toList ∧ portion.token? = l.token? ∧
        portion.Placed source problems front behind :=
    ⟨.token ⟨k, l.text, l.span⟩, rfl, ht.symm, hk, hne, spanIn_eq hs hl rfl⟩
  cases hk : l.kind with
  | token k =>
    rw [hk] at hd
    exact token hd (by rw [Lexeme.token?, hk])
  | cutString value =>
    exact token (k := .string value) (by simp) (by rw [Lexeme.token?, hk])
  | malformedUrl content =>
    exact token (k := .url content) (by simp) (by rw [Lexeme.token?, hk])
  | comment =>
    rw [hk] at hd
    exact ⟨.comment l.text.toList, rfl, by rw [Lexeme.token?, hk]; rfl, hd⟩
  | markupMark =>
    rw [hk] at hd
    exact ⟨.markupMark l.text.toList, rfl, by rw [Lexeme.token?, hk]; rfl, hd⟩
  | stray c =>
    rw [hk] at hd
    refine ⟨.dropped c, hd.symm, by rw [Lexeme.token?, hk]; rfl, ?_⟩
    have hp : l.span = (dropped c).spanIn front behind := spanIn_eq hs hl hd.symm
    show problems.filter _ = _
    rw [← hp]
    exact hr c hk

/-- The text of a token that is put together from lexemes. -/
theorem toList_join (ls : List Lexeme) : (String.join (ls.map Lexeme.text)).toList = textOf ls := by
  rw [String.toList_join, textOf, List.flatMap_map]

theorem isSilent_eq_false {blocks : List Block} (hb : ∀ b ∈ blocks, b.silent = false) :
    TokenStream.isSilent blocks = false := by
  cases blocks with
  | nil => rfl
  | cons b outer => exact hb b List.mem_cons_self

theorem close_subset (l : Lexeme) (blocks : List Block) : TokenStream.close l blocks ⊆ blocks := by
  cases blocks with
  | nil => exact List.Subset.refl _
  | cons b outer =>
    rw [TokenStream.close]
    split
    · exact List.subset_cons_self b outer
    · exact List.Subset.refl _

/-- A quoted address, as one portion of the text. -/
theorem exists_address (source : String) (problems : List Problem) {l : Lexeme}
    {inner more : List Lexeme} {value : String} {t : Token} {rest : List Char}
    (hs : ¬ SplitsLineEnd front rest) (hl : l.LiesAt front behind)
    (hscan : scan (.after .start front) rest = l :: (inner ++ more))
    (ht : t = ⟨.url value, String.join ((l :: inner).map Lexeme.text),
      ⟨l.span.start, ((l :: inner).getLast (List.cons_ne_nil l inner)).span.stop⟩⟩) :
    ∃ behind, rest = t.text.toList ++ behind ∧ ¬ SplitsLineEnd (front ++ t.text.toList) behind ∧
      more = scan (.after .start (front ++ t.text.toList)) behind ∧ t.text.toList ≠ [] ∧
      (token t).Placed source problems front behind := by
  have htext : t.text.toList = textOf (l :: inner) := by
    rw [ht]
    exact toList_join (l :: inner)
  have hne : t.text.toList ≠ [] := by
    intro e
    rw [htext, textOf, List.flatMap_cons] at e
    exact hl.ne_nil (List.append_eq_nil_iff.1 e).1
  obtain ⟨behind, hr, hs', hmore, hlast⟩ := scan_append hs (hscan.trans List.cons_append.symm)
  rw [← htext] at hr hs' hmore hlast
  have hspan : t.span = ⟨.after .start front, .after .start (front ++ t.text.toList)⟩ := by
    rw [← hlast (List.cons_ne_nil l inner), ht, hl.span]
  refine ⟨behind, hr, hs', hmore, hne, ?_, ?_, ?_⟩
  · rw [ht]
    simp
  · intro e
    exact hne (by rw [e]; rfl)
  · rw [hspan, spanIn, chars, ← hr, ← after_eq_boundary hs, ← after_eq_boundary hs']

open TokenStream in
/-- The lexemes of a text as portions, outside of quoted addresses. -/
theorem tiles_scan {limit : Nat} {blocks : List Block} (hb : ∀ b ∈ blocks, b.silent = false)
    {rest : List Char} (hs : ¬ SplitsLineEnd front rest)
    (hr : ∀ l ∈ scan (.after .start front) rest, Reported source problems l)
    (hd : (ofLexemes source limit blocks (scan (.after .start front) rest)).tooDeep = none) :
    Tiles source problems front rest
      (ofLexemes source limit blocks (scan (.after .start front) rest)).tokens := by
  -- by the length of the rest, since a quoted address takes several lexemes at once
  induction hn : rest.length using Nat.strongRecOn generalizing front blocks rest with
  | _ n ih =>
    by_cases hne : rest = []
    · subst hne
      rw [scan]
      exact tiles_nil
    have shorter {text behind : List Char} (e : rest = text ++ behind) (h : text ≠ []) :
        behind.length < n := by
      rw [← hn, e, List.length_append]
      have := List.length_pos_iff.2 h
      omega
    obtain ⟨l, behind, e, hl, hscan⟩ := scan_cons hs hne
    rw [hscan] at hr hd ⊢
    -- which blocks are open behind the lexeme makes no difference to it
    have alone {blocks' : List Block} (hb' : ∀ b ∈ blocks', b.silent = false)
        (hd' : (ofLexemes source limit blocks'
          (scan (.after .start (front ++ l.text.toList)) behind)).tooDeep = none) :
        Tiles source problems front rest (l.token?.toList ++ (ofLexemes source limit blocks'
          (scan (.after .start (front ++ l.text.toList)) behind)).tokens) := by
      obtain ⟨portion, hc, ht, hp⟩ := exists_portion (e ▸ hs) hl (hr l List.mem_cons_self)
      rw [e, ← ht, ← hc]
      apply Tiles.cons hp
      rw [hc]
      exact ih behind.length (shorter e hl.ne_nil) hb' hl.noSplit
        (fun m hm => hr m (List.mem_cons_of_mem l hm)) hd' rfl
    rw [ofLexemes] at hd ⊢
    split at hd
    · rw [isSilent_eq_false hb, if_neg Bool.false_ne_true]
      exact alone (fun b hm => hb b (close_subset l blocks hm)) hd
    · rename_i bracket ho
      split at hd
      · contradiction
      rename_i hlim
      rw [if_neg hlim]
      split at hd
      · rename_i t hq
        obtain ⟨hbracket, value, inner, ha, ht⟩ := quotedUrl?_eq hq
        rw [hbracket, Option.some.injEq] at ho
        subst ho
        obtain ⟨more, e', hinner⟩ := ofLexemes_inner source limit blocks ha
        rw [hinner] at hd ⊢
        rw [e'] at hscan hr
        obtain ⟨behind', er, hs', hmore, hne', hp⟩ :=
          exists_address source problems hs hl hscan ht
        rw [hmore] at hd hr ⊢
        rw [er]
        exact Tiles.cons hp (ih behind'.length (shorter er hne') hb hs'
          (fun m hm => hr m (List.mem_cons_of_mem l (List.mem_append_right inner hm))) hd rfl)
      · refine alone ?_ hd
        intro b hm
        rcases List.mem_cons.1 hm with rfl | hm
        · rfl
        · exact hb b hm

end

/-! ## Every dropped character is reported once -/

theorem span_of_mem_problems {source : String} {l : Lexeme} {problem : Problem}
    (h : problem ∈ l.problems source) : problem.span = l.span := by
  unfold Lexeme.problems at h
  split at h
  · split at h
    · simp at h
    · rw [List.mem_singleton.1 h, Problem.ofParams]
  · simp at h
  · split at h
    · simp at h
    · rw [List.mem_singleton.1 h, Problem.ofParams]
  · simp at h
  · rw [List.mem_singleton.1 h, Problem.ofParams]
  · rw [List.mem_singleton.1 h, Problem.ofParams]
  · split at h
    · rw [List.mem_singleton.1 h, Problem.ofParams]
    · rw [List.mem_singleton.1 h, Problem.ofParams]

/-- Lexemes elsewhere say nothing about what stands at `p`. -/
theorem filter_dropsAt_eq_nil {source : String} {p : Position} {ls : List Lexeme}
    (h : ∀ l ∈ ls, l.span.start ≠ p) :
    (ls.flatMap (Lexeme.problems source)).filter (Problem.dropsAt p) = [] := by
  rw [List.filter_eq_nil_iff]
  intro problem hp
  obtain ⟨l, hl, hm⟩ := List.mem_flatMap.1 hp
  simp only [Problem.dropsAt, span_of_mem_problems hm, Bool.and_eq_true, beq_iff_eq, not_and]
  intro _
  exact h l hl

theorem problems_of_stray {source : String} {l : Lexeme} {c : Char} (h : l.kind = .stray c) :
    l.problems source = [droppedProblem source c l.span] := by
  rw [Lexeme.problems, h, droppedProblem]
  simp only [beq_iff_eq]
  split <;> rfl

theorem dropsAt_droppedProblem (source : String) (c : Char) (span : Span) :
    (droppedProblem source c span).dropsAt span.start = true := by
  rw [droppedProblem]
  split <;> simp [Problem.dropsAt, Problem.ofParams]

theorem reported_scan (source : String) (p : Position) (cs : List Char) :
    ∀ l ∈ scan p cs, Reported source ((scan p cs).flatMap (Lexeme.problems source)) l := by
  intro l hl c hc
  obtain ⟨as, bs, e⟩ := List.append_of_mem hl
  have hp := scan_pairwise p cs
  rw [e] at hp ⊢
  rw [List.pairwise_append, List.pairwise_cons] at hp
  obtain ⟨-, ⟨hb, -⟩, ha⟩ := hp
  rw [List.flatMap_append, List.flatMap_cons, List.filter_append, List.filter_append,
    filter_dropsAt_eq_nil fun m hm => (ha m hm l List.mem_cons_self).ne,
    filter_dropsAt_eq_nil fun m hm => (hb m hm).ne.symm, problems_of_stray hc,
    List.filter_cons_of_pos (dropsAt_droppedProblem source c l.span), List.filter_nil]
  rfl

end Portion

theorem lexemeEnd_eq (text : List Char) : lexemeEnd text = Position.boundary text [] := by
  have hscan : scan (Position.start.after []) text = scan .start text ++ [] :=
    (List.append_nil _).symm
  obtain ⟨-, -, -, -, hlast⟩ := scan_append (not_splitsLineEnd_nil text) hscan
  have ht : text = textOf (scan .start text) := (scan_text .start text).symm
  rw [List.nil_append, ← ht] at hlast
  rw [lexemeEnd, ← after_eq_boundary (not_splitsLineEnd_nil_right text)]
  by_cases hne : scan .start text = []
  · rw [hne] at ht ⊢
    rw [ht]
    rfl
  · rw [List.getLast?_eq_some_getLast hne, Option.map_some, Option.getD_some]
    exact hlast hne

open Portion in
/-- A text for which there are tokens is a row of tokens, comments, markup marks and dropped
    characters, each of which is reported once; the tokens of the row, with one empty `eof` at the
    end of the text, are all tokens there are. -/
theorem tokenize_portions {source : String} {text : List Char} {options : Options}
    (h : (tokenize source text options).tooDeep = none) :
    ∃ portions : List Portion, portions.flatMap chars = text ∧
      (tokenize source text options).tokens =
        portions.filterMap Portion.token? ++ [⟨.eof, "", .point (boundary text [])⟩] ∧
      AllPlaced source (tokenize source text options).problems [] portions := by
  obtain ⟨hd, e⟩ := tokenize_eq h
  have hp := TokenStream.ofLexemes_problems hd
  rw [e, hp, lexemeEnd_eq]
  obtain ⟨portions, ht, htokens, hps⟩ := tiles_scan
    (fun b hb => absurd hb List.not_mem_nil) (not_splitsLineEnd_nil text)
    (reported_scan source .start text) hd
  refine ⟨portions, ht, ?_, hps⟩
  exact congrArg (· ++ [TokenStream.eofAt (boundary text [])]) htokens

/-- Line ends of two characters, characters that are dropped inside and outside of a quoted address,
    brackets that fit nothing, and a comment without an end. -/
def raggedText : List Char := "<!--a\r\n𝄞\\\n]\x7burl( '\x5c\r\n' /**/^ )\x7d)^/*-->".toList

open Portion in
theorem tokenize_raggedText :
    ∃ portions : List Portion, portions.flatMap chars = raggedText ∧
      (tokenize "ragged.css" raggedText .strict).tokens =
        portions.filterMap Portion.token? ++ [⟨.eof, "", .point (boundary raggedText [])⟩] ∧
      AllPlaced "ragged.css" (tokenize "ragged.css" raggedText .strict).problems [] portions :=
  tokenize_portions (by decide +kernel)

end Stylesheet
