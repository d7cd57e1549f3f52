import Stylesheet.Proofs.Written.Name

/-!
# Strings that are closed

What stands behind the quote that opens a string are units, plain characters and escapes
(`StringBody`), up to the quote that closes it, to a newline or to the end of the text
(`quotedText_split`). The text of a string shows at its end which of these it was
(`isClosedString_iff_closed`): every unit ends in an even number of backslashes, so those in front of
a closing quote come in pairs, and a quote that is the end of a unit has one backslash more.
-/

namespace Stylesheet

/-! ## Units -/

/-- What may end an escape: nothing, a blank, or a carriage return with its line feed. -/
def IsGap (cs : List Char) : Prop := cs = [] ∨ cs = ['\r', '\n'] ∨ ∃ c, isBlank c = true ∧ cs = [c]

/-- The end of a line. -/
def IsLineEnd (cs : List Char) : Prop := cs = ['\r', '\n'] ∨ ∃ c, isNewline c = true ∧ cs = [c]

/-- What stands for one character of a string, or for none where a backslash continues the line. -/
inductive StringUnit (quote : Char) : List Char → Prop
  | plain {c : Char} (hq : c ≠ quote) (hs : c ≠ '\\') (hn : isNewline c = false) :
    StringUnit quote [c]
  | continued {lineEnd : List Char} (h : IsLineEnd lineEnd) : StringUnit quote ('\\' :: lineEnd)
  | code {digits gap : List Char} (hne : digits ≠ []) (hl : digits.length ≤ 6)
      (hd : ∀ d ∈ digits, isHexDigit d = true) (hg : IsGap gap) :
    StringUnit quote ('\\' :: (digits ++ gap))
  | escaped {c : Char} (hn : isNewline c = false) (hd : isHexDigit c = false) :
    StringUnit quote ['\\', c]

/-- Units one behind the other. -/
inductive StringBody (quote : Char) : List Char → Prop
  | nil : StringBody quote []
  | cons {unit body : List Char} (hu : StringUnit quote unit) (h : StringBody quote body) :
    StringBody quote (unit ++ body)

/-! ## Backslashes at the end -/

/-- The number of backslashes at the end of a text. -/
def trailingSlashes (cs : List Char) : Nat := (cs.reverse.takeWhile (· == '\\')).length

theorem trailingSlashes_append_mod {front : List Char} (h : trailingSlashes front % 2 = 0)
    (body : List Char) :
    trailingSlashes (front ++ body) % 2 = trailingSlashes body % 2 := by
  unfold trailingSlashes at *
  rw [List.reverse_append, List.takeWhile_append]
  split
  · rename_i e
    rw [List.length_append]
    omega
  · rfl

theorem trailingSlashes_append_eq_zero (front body : List Char) (hne : body ≠ [])
    (h : ∀ c ∈ body, c ≠ '\\') : trailingSlashes (front ++ body) = 0 := by
  have hl := h _ (List.getLast_mem hne)
  unfold trailingSlashes
  rw [← List.dropLast_concat_getLast hne, ← List.append_assoc, List.reverse_append]
  simp [hl]

theorem ne_backslash_of_isBlank {c : Char} (h : isBlank c = true) : c ≠ '\\' := by
  intro he
  subst he
  exact absurd h (by decide)

theorem ne_backslash_of_isHexDigit {c : Char} (h : isHexDigit c = true) : c ≠ '\\' := by
  intro he
  subst he
  exact absurd h (by decide)

theorem IsLineEnd.isBlank {cs : List Char} (h : IsLineEnd cs) : ∀ c ∈ cs, isBlank c = true := by
  rcases h with rfl | ⟨c, hc, rfl⟩
  · exact List.forall_mem_cons.2 ⟨rfl, List.forall_mem_singleton.2 rfl⟩
  · exact List.forall_mem_singleton.2 (isBlank_of_isNewline hc)

theorem IsLineEnd.ne_nil {cs : List Char} (h : IsLineEnd cs) : cs ≠ [] := by
  rcases h with rfl | ⟨c, -, rfl⟩
  · exact List.cons_ne_nil _ _
  · exact List.cons_ne_nil _ _

theorem IsGap.isBlank {cs : List Char} (h : IsGap cs) : ∀ c ∈ cs, isBlank c = true := by
  rcases h with rfl | rfl | ⟨c, hc, rfl⟩
  · exact fun _ h => absurd h List.not_mem_nil
  · exact List.forall_mem_cons.2 ⟨rfl, List.forall_mem_singleton.2 rfl⟩
  · exact List.forall_mem_singleton.2 hc

namespace StringUnit

variable {quote : Char} {unit : List Char}

/-- What stands in an escape by its code are digits and blanks. -/
theorem forall_code {P : Char → Prop} {digits gap : List Char}
    (hd : ∀ d ∈ digits, isHexDigit d = true) (hg : IsGap gap) (hex : ∀ c, isHexDigit c = true → P c)
    (blank : ∀ c, isBlank c = true → P c) : ∀ c ∈ digits ++ gap, P c := by
  intro c hc
  rcases List.mem_append.1 hc with hc | hc
  · exact hex c (hd c hc)
  · exact blank c (hg.isBlank c hc)

/-- A unit ends in an even number of backslashes. -/
theorem even_trailingSlashes (h : StringUnit quote unit) : trailingSlashes unit % 2 = 0 := by
  have behind {tail : List Char} (hne : tail ≠ []) (ht : ∀ c ∈ tail, c ≠ '\\') :
      trailingSlashes ('\\' :: tail) % 2 = 0 := by
    rw [← List.singleton_append, trailingSlashes_append_eq_zero ['\\'] tail hne ht]
  cases h with
  | plain _ hs _ => simp [trailingSlashes, hs]
  | continued h => exact behind h.ne_nil fun c hc => ne_backslash_of_isBlank (h.isBlank c hc)
  | code hne _ hd hg =>
    exact behind (List.append_ne_nil_of_left_ne_nil hne _)
      (forall_code hd hg (fun _ => ne_backslash_of_isHexDigit) fun _ => ne_backslash_of_isBlank)
  | @escaped c _ _ =>
    by_cases hc : c = '\\'
    · subst hc
      rfl
    · exact behind (List.cons_ne_nil _ _) (List.forall_mem_singleton.2 hc)

/-- The only unit that ends in the quote is the quote behind a backslash. -/
theorem eq_of_quote {inner : List Char} (hb : isBlank quote = false)
    (hx : isHexDigit quote = false) (h : StringUnit quote unit) (e : unit = inner ++ [quote]) :
    inner = ['\\'] := by
  -- a backslash with something behind it that does not hold the quote
  have behind {tail : List Char} (hne : tail ≠ []) (ht : ∀ c ∈ tail, c ≠ quote)
      (e : '\\' :: tail = inner ++ [quote]) : inner = ['\\'] := by
    have hl := congrArg List.getLast? e
    rw [List.getLast?_append, List.getLast?_cons, List.getLast?_eq_some_getLast hne] at hl
    exact absurd (Option.some.inj hl) (ht _ (List.getLast_mem hne))
  have blank (c : Char) (hc : isBlank c = true) : c ≠ quote := by
    rintro rfl
    rw [hb] at hc
    contradiction
  cases h with
  | plain hq _ _ =>
    rw [← List.nil_append [_], ← List.concat_eq_append, ← List.concat_eq_append] at e
    exact absurd (List.concat_inj.1 e).2 hq
  | continued h => exact behind h.ne_nil (fun c hc => blank c (h.isBlank c hc)) e
  | code hne _ hd hg =>
    refine behind (List.append_ne_nil_of_left_ne_nil hne _) (forall_code hd hg (fun c hc => ?_) blank) e
    rintro rfl
    rw [hx] at hc
    contradiction
  | escaped _ _ =>
    rw [← List.singleton_append] at e
    exact (List.append_inj_left' e rfl).symm

end StringUnit

namespace StringBody

variable {quote : Char} {body : List Char}

theorem even_trailingSlashes (h : StringBody quote body) : trailingSlashes body % 2 = 0 := by
  induction h with
  | nil => rfl
  | cons hu _ ih => rw [trailingSlashes_append_mod hu.even_trailingSlashes, ih]

/-- A quote at the end of units is part of the last one. -/
theorem odd_of_quote (hb : isBlank quote = false) (hx : isHexDigit quote = false)
    (h : StringBody quote body) {inner : List Char} (e : body = inner ++ [quote]) :
    trailingSlashes inner % 2 = 1 := by
  induction h generalizing inner with
  | nil => exact absurd e.symm (List.append_ne_nil_of_right_ne_nil _ (List.cons_ne_nil _ _))
  | @cons unit body hu _ ih =>
    rcases List.eq_nil_or_concat body with rfl | ⟨front, c, rfl⟩
    · rw [List.append_nil] at e
      rw [hu.eq_of_quote hb hx e]
      rfl
    · rw [List.concat_eq_append, ← List.append_assoc] at e
      obtain ⟨rfl, hc⟩ := List.append_inj' e rfl
      rw [trailingSlashes_append_mod hu.even_trailingSlashes]
      exact ih (by rw [List.concat_eq_append, hc])

end StringBody

/-! ## Reading a string -/

/-- What `dropBlank` drops ends an escape. -/
theorem dropBlank_split (cs : List Char) : ∃ gap, cs = gap ++ dropBlank cs ∧ IsGap gap := by
  match cs with
  | [] => exact ⟨[], rfl, Or.inl rfl⟩
  | c :: rest =>
    by_cases hb : isBlank c = true
    · by_cases hr : (c == '\r' && rest.head? == some '\n') = true
      · match rest, hr with
        | [], hr => simp at hr
        | d :: rest, hr =>
          simp only [List.head?_cons, Bool.and_eq_true, beq_iff_eq, Option.some.injEq] at hr
          obtain ⟨rfl, rfl⟩ := hr
          exact ⟨['\r', '\n'], by simp [dropBlank, isBlank], Or.inr (Or.inl rfl)⟩
      · exact ⟨[c], by simp [dropBlank, hb, hr], Or.inr (Or.inr ⟨c, hb, rfl⟩)⟩
    · exact ⟨[], by simp [dropBlank, hb], Or.inl rfl⟩

/-- A line that a backslash continues. -/
theorem lineEnd_split (quote : Char) {rest : List Char} (h : startsNewline rest = true) :
    ∃ lineEnd, rest = lineEnd ++ dropBlank rest ∧ StringUnit quote ('\\' :: lineEnd) := by
  obtain ⟨gap, e, hg⟩ := dropBlank_split rest
  refine ⟨gap, e, .continued ?_⟩
  obtain ⟨c, rest, rfl⟩ := List.exists_cons_of_ne_nil (show rest ≠ [] by rintro rfl; contradiction)
  rcases hg with rfl | rfl | ⟨d, -, rfl⟩
  · -- the first character ends a line, so it is a blank and is dropped
    have hl := congrArg List.length e
    have hc : isBlank c = true := isBlank_of_isNewline h
    have := (List.tail_suffix rest).length_le
    simp only [dropBlank, hc, List.nil_append, if_true, List.length_cons] at hl
    split at hl <;> omega
  · exact Or.inl rfl
  · obtain ⟨rfl, -⟩ := List.cons.inj e
    exact Or.inr ⟨c, h, rfl⟩

/-- What `escape` reads, with the backslash in front of it, is one unit. -/
theorem escape_split (quote : Char) {rest : List Char} (hne : rest ≠ [])
    (hn : startsNewline rest = false) :
    ∃ front, rest = front ++ (escape rest).2 ∧ StringUnit quote ('\\' :: front) := by
  obtain ⟨c, rest, rfl⟩ := List.exists_cons_of_ne_nil hne
  by_cases hh : isHexDigit c = true
  · let digits := ((c :: rest).take 6).takeWhile isHexDigit
    obtain ⟨gap, e, hg⟩ := dropBlank_split ((c :: rest).drop digits.length)
    have hdigits : digits ++ (c :: rest).drop digits.length = c :: rest :=
      List.prefix_iff_eq_append.1 ((List.takeWhile_prefix _).trans (List.take_prefix 6 (c :: rest)))
    have hescape : (escape (c :: rest)).2 = dropBlank ((c :: rest).drop digits.length) := by
      simp only [escape, hh, if_true, digits]
    refine ⟨digits ++ gap, ?_, .code ?_ ?_ (List.all_eq_true.1 List.all_takeWhile) hg⟩
    · rw [hescape, List.append_assoc, ← e, hdigits]
    · simp [digits, hh]
    · exact Nat.le_trans (List.takeWhile_prefix _).length_le (List.length_take_le 6 (c :: rest))
  · exact ⟨[c], by simp [escape, hh], .escaped hn (by simpa using hh)⟩

/-- The units of a string are `body`, read from `cs`; behind them stands what ended it. Where the text
    ends there may be a backslash that escapes nothing. -/
def QuotedText.EndsBehind (q : QuotedText) (quote : Char) (body cs : List Char) : Prop :=
  match q.ending with
  | .closed => cs = body ++ quote :: q.rest
  | .newline => cs = body ++ q.rest ∧ startsNewline q.rest = true
  | .endOfText => q.rest = [] ∧ (cs = body ∨ cs = body ++ ['\\'])

theorem QuotedText.EndsBehind.append {q : QuotedText} {quote : Char} {body cs : List Char}
    (h : q.EndsBehind quote body cs) (unit : List Char) :
    q.EndsBehind quote (unit ++ body) (unit ++ cs) := by
  obtain ⟨value, ending, rest⟩ := q
  unfold EndsBehind at *
  cases ending with
  | closed => rw [h, List.append_assoc]
  | newline => exact ⟨by rw [List.append_assoc, ← h.1], h.2⟩
  | endOfText =>
    refine ⟨h.1, ?_⟩
    rcases h.2 with rfl | rfl
    · exact Or.inl rfl
    · exact Or.inr (List.append_assoc _ _ _).symm

/-- Every text behind an opening quote begins with units. -/
theorem quotedText_split (quote : Char) (cs : List Char) :
    ∃ body, StringBody quote body ∧ (quotedText quote cs).EndsBehind quote body cs := by
  -- one unit in front of what is left
  have step {unit behind : List Char} (hu : StringUnit quote unit)
      (ih : ∃ body, StringBody quote body ∧ (quotedText quote behind).EndsBehind quote body behind) :
      ∃ body, StringBody quote body ∧
        (quotedText quote behind).EndsBehind quote body (unit ++ behind) := by
    obtain ⟨body, hb, he⟩ := ih
    exact ⟨unit ++ body, .cons hu hb, he.append unit⟩
  fun_induction quotedText quote cs with
  | case1 => exact ⟨[], .nil, rfl, Or.inl rfl⟩
  | case2 c rest hc =>
    rw [beq_iff_eq] at hc
    exact ⟨[], .nil, by rw [hc]; rfl⟩
  | case3 c rest _ hn => exact ⟨[], .nil, rfl, hn⟩
  | case4 c rest _ _ hs hr =>
    rw [beq_iff_eq] at hs
    rw [List.isEmpty_iff.1 hr, hs]
    exact ⟨[], .nil, rfl, Or.inr rfl⟩
  | case5 c rest _ _ hs _ hr _ ih =>
    rw [beq_iff_eq] at hs
    subst hs
    obtain ⟨front, e, hu⟩ := lineEnd_split quote hr
    have h := step hu ih
    rwa [List.cons_append, ← e] at h
  | case6 c rest _ _ hs hne hr _ ih =>
    rw [beq_iff_eq] at hs
    subst hs
    obtain ⟨front, e, hu⟩ := escape_split quote (show rest ≠ [] by simpa using hne)
      (by simpa using hr)
    have h := step hu ih
    rw [List.cons_append, ← e] at h
    exact h
  | case7 c rest hq hn hs ih =>
    exact step (.plain (by simpa using hq) (by simpa using hs) (by simpa using hn)) ih

/-! ## The end of the text of a string -/

theorem isClosedString_iff {quote : Char} {taken : List Char} :
    isClosedString (quote :: taken) = true ↔
      ∃ inner, taken = inner ++ [quote] ∧ trailingSlashes inner % 2 = 0 := by
  rcases List.eq_nil_or_concat taken with rfl | ⟨inner, c, rfl⟩
  · simp [isClosedString]
  · rw [List.concat_eq_append]
    simp only [isClosedString, List.reverse_append, List.reverse_cons, List.reverse_nil,
      List.nil_append, List.singleton_append, Bool.and_eq_true, beq_iff_eq]
    refine ⟨?_, ?_⟩
    · rintro ⟨rfl, h⟩
      exact ⟨inner, rfl, h⟩
    · rintro ⟨inner', e, h⟩
      obtain ⟨rfl, hc⟩ := List.append_inj' e rfl
      exact ⟨(List.cons.inj hc).1, h⟩

section

variable {quote : Char} {taken rest : List Char}
  (hr : (quotedText quote (taken ++ rest)).rest = rest)
include hr

/-- The text of a string that was closed: units between its quotes. -/
theorem exists_body_of_closed (h : (quotedText quote (taken ++ rest)).ending = .closed) :
    ∃ body, StringBody quote body ∧ taken = body ++ [quote] := by
  obtain ⟨body, hb, he⟩ := quotedText_split quote (taken ++ rest)
  rw [QuotedText.EndsBehind, h, hr] at he
  have htaken : taken ++ rest = (body ++ [quote]) ++ rest := by
    rw [List.append_assoc]
    exact he
  exact ⟨body, hb, List.append_cancel_right htaken⟩

/-- The text of a string that was not closed: units, and a backslash where nothing follows it. -/
theorem exists_body_of_not_closed (h : (quotedText quote (taken ++ rest)).ending ≠ .closed) :
    ∃ body, StringBody quote body ∧ (taken = body ∨ taken = body ++ ['\\']) := by
  obtain ⟨body, hb, he⟩ := quotedText_split quote (taken ++ rest)
  refine ⟨body, hb, ?_⟩
  rw [QuotedText.EndsBehind] at he
  split at he
  · contradiction
  · rw [hr] at he
    exact Or.inl (List.append_cancel_right he.1)
  · rw [hr] at he
    rw [he.1, List.append_nil] at he
    exact he.2

end

/-- The text of a string shows whether it was closed. -/
theorem isClosedString_iff_closed {quote : Char} {taken : List Char} (rest : List Char)
    (hr : (quotedText quote (taken ++ rest)).rest = rest) (hq : quote = '"' ∨ quote = '\'') :
    isClosedString (quote :: taken) = true ↔
      (quotedText quote (taken ++ rest)).ending = .closed := by
  refine ⟨fun hc => ?_, fun h => ?_⟩
  case refine_2 =>
    obtain ⟨body, hb, e⟩ := exists_body_of_closed hr h
    exact isClosedString_iff.2 ⟨body, e, hb.even_trailingSlashes⟩
  refine Decidable.byContradiction fun h => ?_
  obtain ⟨inner, e, heven⟩ := isClosedString_iff.1 hc
  obtain ⟨body, hb, ht⟩ := exists_body_of_not_closed hr h
  have hblank : isBlank quote = false := by rcases hq with rfl | rfl <;> rfl
  have hhex : isHexDigit quote = false := by rcases hq with rfl | rfl <;> rfl
  rcases ht with ht | ht
  · have hodd := hb.odd_of_quote hblank hhex (ht.symm.trans e)
    omega
  · obtain ⟨-, hslash⟩ := List.append_inj' (ht.symm.trans e) rfl
    rcases hq with rfl | rfl <;> simp at hslash

/-- It is the quote behind the units that closes a string. -/
theorem isClosedString_iff_body {quote : Char} {taken : List Char} (rest : List Char)
    (hr : (quotedText quote (taken ++ rest)).rest = rest) (hq : quote = '"' ∨ quote = '\'') :
    isClosedString (quote :: taken) = true ↔
      ∃ body, StringBody quote body ∧ taken = body ++ [quote] := by
  refine ⟨fun h => exists_body_of_closed hr ((isClosedString_iff_closed rest hr hq).1 h), ?_⟩
  rintro ⟨body, hb, e⟩
  exact isClosedString_iff.2 ⟨body, e, hb.even_trailingSlashes⟩

end Stylesheet
