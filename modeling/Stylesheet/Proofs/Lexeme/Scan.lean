import Stylesheet.Proofs.Lexeme.Kind

/-!
# Scanning piece by piece

`Lexeme.ReadAs text kind rest` says that `text`, with `rest` behind it, is read as one lexeme. A text
that is put together from such pieces is scanned piece by piece (`scan_readAs`), and every text is
(`scan_cons`). The lexemes lie side by side: each begins where the one in front of it ends
(`scan_append`), and no two begin at one place (`scan_pairwise`).
-/

namespace Stylesheet.Lexeme

/-- `text` is one lexeme where `rest` follows. -/
def ReadAs (text : List Char) (kind : Kind) (rest : List Char) : Prop :=
  ∃ c cs, text = c :: cs ∧ next c (cs ++ rest) = (kind, rest)

theorem scan_readAs {text : List Char} {kind : Kind} {rest : List Char}
    (h : ReadAs text kind rest) (p : Position) :
    scan p (text ++ rest) =
      ⟨kind, String.ofList text, ⟨p, p.after text⟩⟩ :: scan (p.after text) rest := by
  obtain ⟨c, cs, rfl, e⟩ := h
  have hl : (cs ++ rest).length + 1 - rest.length = (c :: cs).length := by
    rw [List.length_append, List.length_cons]
    omega
  have ht : (c :: (cs ++ rest)).take ((cs ++ rest).length + 1 - rest.length) = c :: cs := by
    rw [hl, ← List.cons_append, List.take_left]
  rw [List.cons_append, scan]
  simp only [e, ht]

/-- A mark of one character. -/
theorem readAs_mark {c : Char} {kind : Kind} {rest : List Char} (h : next c rest = (kind, rest)) :
    ReadAs [c] kind rest :=
  ⟨c, [], rfl, h⟩

/-! ## Every text is read -/

/-- The lexeme at the front of a text that is not empty. -/
theorem exists_readAs (c : Char) (rest : List Char) :
    ∃ text kind behind, c :: rest = text ++ behind ∧ ReadAs text kind behind ∧
      ¬ SplitsLineEnd text behind ∧ kind.Describes text behind := by
  obtain ⟨front, e, hs⟩ := next_cuts c rest
  obtain ⟨mid, e'⟩ := next_suffix c rest
  have hf : front = c :: mid := by
    apply List.append_cancel_right
    rw [← e, List.cons_append, e']
  refine ⟨front, (next c rest).1, (next c rest).2, e, ⟨c, mid, hf, ?_⟩, hs, fits_next c rest front e⟩
  rw [e']

theorem ReadAs.ne_nil {text : List Char} {kind : Kind} {rest : List Char}
    (h : ReadAs text kind rest) : text ≠ [] := by
  obtain ⟨c, cs, rfl, -⟩ := h
  exact List.cons_ne_nil c cs

/-- A lexeme between `front` and `behind`, at its place in the text. -/
structure LiesAt (l : Lexeme) (front behind : List Char) : Prop where
  ne_nil : l.text.toList ≠ []
  describes : l.kind.Describes l.text.toList behind
  span : l.span = ⟨Position.start.after front, Position.start.after (front ++ l.text.toList)⟩
  noSplit : ¬ SplitsLineEnd (front ++ l.text.toList) behind

theorem not_splitsLineEnd_append {front text behind : List Char} (hne : text ≠ [])
    (h : ¬ SplitsLineEnd text behind) : ¬ SplitsLineEnd (front ++ text) behind := by
  intro hs
  refine h ⟨?_, hs.2⟩
  have hl := hs.1
  rw [List.getLast?_append, List.getLast?_eq_some_getLast hne, Option.some_or] at hl
  rw [List.getLast?_eq_some_getLast hne, hl]

/-- One lexeme, and those of what follows. -/
theorem scan_cons {front rest : List Char} (hs : ¬ SplitsLineEnd front rest) (hne : rest ≠ []) :
    ∃ l behind, rest = l.text.toList ++ behind ∧ LiesAt l front behind ∧
      scan (.after .start front) rest =
        l :: scan (.after .start (front ++ l.text.toList)) behind := by
  obtain ⟨c, cs, rfl⟩ := List.exists_cons_of_ne_nil hne
  obtain ⟨text, kind, behind, e, hr, hn, hd⟩ := exists_readAs c cs
  -- the place in front of the lexeme splits a line end only if it does so in the whole text
  have hf : ¬ SplitsLineEnd front text := by
    intro h
    refine hs ⟨h.1, ?_⟩
    obtain ⟨d, ds, rfl⟩ := List.exists_cons_of_ne_nil hr.ne_nil
    rw [e]
    exact h.2
  refine ⟨⟨kind, String.ofList text, ⟨.after .start front, .after .start (front ++ text)⟩⟩, behind,
    ?_, ⟨?_, ?_, ?_, ?_⟩, ?_⟩
  · rw [String.toList_ofList]
    exact e
  · rw [String.toList_ofList]
    exact hr.ne_nil
  · rw [String.toList_ofList]
    exact hd
  · rw [String.toList_ofList]
  · rw [String.toList_ofList]
    exact not_splitsLineEnd_append hr.ne_nil hn
  · rw [e, scan_readAs hr, String.toList_ofList, Position.after_append hf]

theorem not_splitsLineEnd_nil_right (front : List Char) : ¬ SplitsLineEnd front [] := by
  intro h
  exact absurd h.2 (by simp)

/-- The text of lexemes. -/
def textOf (ls : List Lexeme) : List Char := ls.flatMap fun l => l.text.toList

/-- A part of the lexemes covers a part of the text; the others are those of the rest. -/
theorem scan_append {front rest : List Char} (hs : ¬ SplitsLineEnd front rest)
    {ls more : List Lexeme} (h : scan (.after .start front) rest = ls ++ more) :
    ∃ behind, rest = textOf ls ++ behind ∧ ¬ SplitsLineEnd (front ++ textOf ls) behind ∧
      more = scan (.after .start (front ++ textOf ls)) behind ∧
      ∀ hne : ls ≠ [], (ls.getLast hne).span.stop = .after .start (front ++ textOf ls) := by
  induction ls generalizing front rest with
  | nil =>
    refine ⟨rest, rfl, ?_, ?_, fun hne => absurd rfl hne⟩
    · rw [textOf, List.flatMap_nil, List.append_nil]
      exact hs
    · rw [textOf, List.flatMap_nil, List.append_nil]
      exact h.symm
  | cons l ls ih =>
    have hne : rest ≠ [] := by
      intro e
      rw [e, scan] at h
      contradiction
    obtain ⟨m, behind, e, hm, hscan⟩ := scan_cons hs hne
    rw [hscan, List.cons_append, List.cons.injEq] at h
    obtain ⟨rfl, h⟩ := h
    obtain ⟨behind', e', hs', hmore, hlast⟩ := ih hm.noSplit h
    have ht : textOf (m :: ls) = m.text.toList ++ textOf ls := List.flatMap_cons
    rw [List.append_assoc, ← ht] at hs' hmore hlast
    refine ⟨behind', ?_, hs', hmore, fun _ => ?_⟩
    · rw [ht, List.append_assoc, ← e', e]
    · cases ls with
      | nil =>
        rw [List.getLast_singleton, hm.span, ht, textOf, List.flatMap_nil, List.append_nil]
      | cons n ls =>
        rw [List.getLast_cons (List.cons_ne_nil n ls)]
        exact hlast (List.cons_ne_nil n ls)

/-! ## All lexemes of a text -/

/-- No lexeme is the end of the tokens. -/
theorem scan_ne_eof (p : Position) (cs : List Char) : ∀ l ∈ scan p cs, l.kind ≠ .token .eof := by
  fun_induction scan p cs with
  | case1 => simp
  | case2 p c rest h behind text ih =>
    intro l hl
    rcases List.mem_cons.1 hl with rfl | hl
    · obtain ⟨front, e, -⟩ := next_cuts c rest
      have hd := fits_next c rest front e
      intro hk
      rw [show (next c rest).1 = .token .eof from hk] at hd
      exact hd rfl
    · exact ih l hl

/-- A lexeme has at least one character. -/
theorem piece_ne_nil (c : Char) (rest : List Char) :
    (c :: rest).take (rest.length + 1 - (next c rest).2.length) ≠ [] := by
  have := (next_suffix c rest).length_le
  intro e
  have hl := congrArg List.length e
  simp only [List.length_take, List.length_cons, List.length_nil] at hl
  omega

/-- What is scanned from `p` on begins at `p` or behind it. -/
theorem scan_start (p : Position) (cs : List Char) :
    ∀ l ∈ scan p cs, l.span.start = p ∨ p.Before l.span.start := by
  fun_induction scan p cs with
  | case1 => simp
  | case2 p c rest h behind text ih =>
    intro l hl
    rcases List.mem_cons.1 hl with rfl | hl
    · exact Or.inl rfl
    · have hp := Position.before_after p (piece_ne_nil c rest)
      rcases ih l hl with e | hb
      · rw [e]
        exact Or.inr hp
      · exact Or.inr (hp.trans hb)

/-- Lexemes stand in reading order. -/
theorem scan_pairwise (p : Position) (cs : List Char) :
    (scan p cs).Pairwise fun l m => l.span.start.Before m.span.start := by
  fun_induction scan p cs with
  | case1 => exact List.Pairwise.nil
  | case2 p c rest h behind text ih =>
    refine List.Pairwise.cons ?_ ih
    intro m hm
    -- the first lexeme ends behind `p`, and all others begin there or later
    have hp := Position.before_after p (piece_ne_nil c rest)
    rcases scan_start _ _ m hm with e | hb
    · rw [e]
      exact hp
    · exact hp.trans hb

end Stylesheet.Lexeme
