import Mathlib.Data.List.Infix
import Stylesheet.Proofs.Lexeme.Closed
import Stylesheet.Proofs.Token.Portion

/-!
# Strings and comments without an end

Whether a string or a comment was closed is decided where it is read, with all of the text in front;
what is reported looks at nothing but its own text. Both agree for every lexeme
(`Lexeme.ReadAs.isClosedString_iff`, `Lexeme.ReadAs.isClosedComment_iff`), so that the problems of this
kind are those of the strings and comments that were cut off (`tokenize_unterminated`).
-/

namespace Stylesheet

namespace Lexeme

/-- A string, cut off or not. -/
def Kind.isString : Kind → Bool
  | .token (.string _) | .cutString _ => true
  | _ => false

theorem Kind.isString_iff {kind : Kind} :
    kind.isString = true ↔ ∃ value, kind = .token (.string value) ∨ kind = .cutString value := by
  refine ⟨fun h => ?_, ?_⟩
  · unfold isString at h
    split at h
    · exact ⟨_, Or.inl rfl⟩
    · exact ⟨_, Or.inr rfl⟩
    · contradiction
  · rintro ⟨value, rfl | rfl⟩ <;> rfl

/-- How a string ended that was read in front of `behind`. -/
def stringEnd? (l : Lexeme) (behind : List Char) : Option StringEnd :=
  match l.kind.isString, l.text.toList with
  | true, quote :: taken => some (quotedText quote (taken ++ behind)).ending
  | _, _ => none

/-- A string in front of `behind` that its quote does not end. -/
def isCutString (l : Lexeme) (behind : List Char) : Bool :=
  (l.stringEnd? behind).any (· != .closed)

/-- A comment in front of `behind` that no closing mark ends, the opening mark aside. -/
def isCutComment (l : Lexeme) (behind : List Char) : Bool :=
  l.kind == .comment && !decide (closingMark <:+: (l.text.toList ++ behind).drop openingMark.length)

/-- The lexemes, each with the text behind it. -/
def withBehind : List Lexeme → List (Lexeme × List Char)
  | [] => []
  | l :: ls => (l, textOf ls) :: withBehind ls

/-- What is scanned is read in front of the text behind it. -/
theorem readAs_of_scan (p : Position) (cs : List Char) :
    ∀ x ∈ withBehind (scan p cs), ReadAs x.1.text.toList x.1.kind x.2 := by
  induction hl : cs.length using Nat.strongRecOn generalizing p cs with
  | ind n ih =>
    cases cs with
    | nil =>
      rw [scan]
      exact fun _ h => absurd h List.not_mem_nil
    | cons c rest =>
      obtain ⟨text, kind, behind, e, hr, -, -⟩ := exists_readAs c rest
      have hshort : behind.length < n := by
        have hlen := congrArg List.length e
        have hpos := List.length_pos_iff.2 hr.ne_nil
        rw [List.length_append] at hlen
        omega
      rw [e, scan_readAs hr, withBehind]
      refine List.forall_mem_cons.2 ⟨?_, ih _ hshort _ _ rfl⟩
      rw [String.toList_ofList, textOf, scan_text]
      exact hr

/-! ## Strings -/

theorem identLike_isString (cs : List Char) : (identLike cs).1.isString = false := by
  simp only [identLike]
  split
  · split
    · simp only [urlToken]
      split
      · rfl
      · split <;> rfl
    · rfl
  · rfl

theorem numericToken_isString (cs : List Char) :
    Kind.isString (.token (numericToken cs).1) = false := by
  simp only [numericToken]
  split
  · rfl
  · split <;> rfl

/-- Only a quote begins a string. -/
theorem next_isString {c : Char} {rest : List Char} (h : (next c rest).1.isString = true) :
    (c = '"' ∨ c = '\'') ∧ next c rest = quotedToken c rest := by
  have hash : (hashToken rest).1.isString = false := by
    unfold hashToken
    split
    · rfl
    · split <;> rfl
  have keyword : (atToken rest).1.isString = false := by
    unfold atToken
    split <;> rfl
  have compare {op : Comparison} {alone : Kind} (ha : alone.isString = false) :
      (comparisonToken op alone rest).1.isString = false := by
    unfold comparisonToken
    split
    · rfl
    · exact ha
  have punctuated (h : (punctuation c rest).1.isString = true) :
      (c = '"' ∨ c = '\'') ∧ punctuation c rest = quotedToken c rest := by
    unfold punctuation at h ⊢
    split at h
    case h_1 => exact ⟨Or.inl rfl, rfl⟩
    case h_2 => exact ⟨Or.inr rfl, rfl⟩
    all_goals first
      | contradiction
      | exact absurd h (by rw [hash]; decide)
      | exact absurd h (by rw [keyword]; decide)
      | exact absurd h (by rw [compare rfl]; decide)
      | split at h <;> contradiction
  unfold next at h ⊢
  split at h
  · contradiction
  · split at h
    · rw [numericToken_isString] at h
      contradiction
    · split at h
      · contradiction
      · split at h
        · rw [identLike_isString] at h
          contradiction
        · rename_i hb hs hm hn
          rw [if_neg hb, if_neg hs, if_neg hm, if_neg hn]
          exact punctuated h

/-- A string is read behind the quote that it begins with. -/
theorem ReadAs.string {text behind : List Char} {kind : Kind} (h : ReadAs text kind behind)
    (hk : kind.isString = true) :
    ∃ quote taken, text = quote :: taken ∧ (quote = '"' ∨ quote = '\'') ∧
      quotedToken quote (taken ++ behind) = (kind, behind) := by
  obtain ⟨c, cs, rfl, hnext⟩ := h
  have hs : (next c (cs ++ behind)).1.isString = true := by
    rw [hnext]
    exact hk
  obtain ⟨hq, e⟩ := next_isString hs
  exact ⟨c, cs, rfl, hq, e.symm.trans hnext⟩

section

variable {l : Lexeme} {behind : List Char} (hr : ReadAs l.text.toList l.kind behind)
include hr

/-- The text of a string shows how it ended. -/
theorem isClosedString_iff_stringEnd (hk : l.kind.isString = true) :
    isClosedString l.text.toList = true ↔ l.stringEnd? behind = some .closed := by
  obtain ⟨quote, taken, e, hq, hread⟩ := hr.string hk
  have hrest : (quotedText quote (taken ++ behind)).rest = behind := congrArg Prod.snd hread
  rw [stringEnd?, hk, e, isClosedString_iff_closed behind hrest hq]
  exact (Option.some_inj).symm

/-- It is the quote behind the units that closes it. -/
theorem isClosedString_iff_units (hk : l.kind.isString = true) :
    isClosedString l.text.toList = true ↔
      ∃ quote body, StringBody quote body ∧ l.text.toList = quote :: (body ++ [quote]) := by
  obtain ⟨quote, taken, e, hq, hread⟩ := hr.string hk
  rw [e, isClosedString_iff_body behind (congrArg Prod.snd hread) hq]
  refine ⟨fun ⟨body, hb, ht⟩ => ⟨quote, body, hb, by rw [ht]⟩, ?_⟩
  rintro ⟨quote', body, hb, ht⟩
  obtain ⟨rfl, ht⟩ := List.cons.inj ht
  exact ⟨body, hb, ht⟩

/-- A string is cut off if its text does not show that it was closed. -/
theorem isCutString_eq :
    l.isCutString behind = (l.kind.isString && !isClosedString l.text.toList) := by
  cases hk : l.kind.isString with
  | false => simp only [isCutString, stringEnd?, hk, Option.any_none, Bool.false_and]
  | true =>
    have hiff := isClosedString_iff_stringEnd hr hk
    obtain ⟨quote, taken, e, -, -⟩ := hr.string hk
    simp only [isCutString, stringEnd?, hk, e, Option.some_inj, Option.any_some] at hiff ⊢
    by_cases hend : (quotedText quote (taken ++ behind)).ending = .closed
    · rw [hiff.2 hend, hend]
      rfl
    · rw [Bool.eq_false_iff.2 (mt hiff.1 hend), bne_iff_ne.2 hend]
      rfl

/-- A newline closes no string. -/
theorem isClosedString_of_cutString {value : String} (h : l.kind = .cutString value) :
    isClosedString l.text.toList = false := by
  have hk : l.kind.isString = true := by rw [h]; rfl
  obtain ⟨quote, taken, e, hq, hread⟩ := hr.string hk
  have hrest : (quotedText quote (taken ++ behind)).rest = behind := congrArg Prod.snd hread
  have hkind := congrArg Prod.fst hread
  rw [e, ← Bool.not_eq_true, isClosedString_iff_closed behind hrest hq]
  intro hend
  simp only [quotedToken, hend, h] at hkind
  contradiction

end

/-! ## Comments -/

theorem ReadAs.describes {text behind : List Char} {kind : Kind} (h : ReadAs text kind behind) :
    kind.Describes text behind := by
  obtain ⟨c, cs, rfl, e⟩ := h
  have hd := fits_next c (cs ++ behind) (c :: cs) (by rw [e]; rfl)
  rwa [e] at hd

end Lexeme

/-- The closing mark of a comment does not overlap its opening one. -/
theorem isClosedComment_iff (body : List Char) :
    isClosedComment (openingMark ++ body) = true ↔ closingMark <:+ body := by
  have hmark : ['/', '*'] = closingMark.reverse := rfl
  rw [isClosedComment, Bool.and_eq_true, decide_eq_true_eq, List.isPrefixOf_iff_prefix, hmark,
    List.reverse_prefix, List.length_append]
  refine ⟨fun ⟨hl, h⟩ => ?_, fun h => ⟨?_, h.trans (List.suffix_append _ _)⟩⟩
  · refine List.suffix_of_suffix_length_le h (List.suffix_append _ _) ?_
    simp only [openingMark, closingMark, List.length_cons, List.length_nil] at hl ⊢
    omega
  · have hl := h.length_le
    simp only [openingMark, closingMark, List.length_cons, List.length_nil] at hl ⊢
    omega

namespace IsComment

variable {text behind : List Char} (h : IsComment text behind)
include h

/-- Its text shows whether there is a closing mark behind the opening one. -/
theorem isClosedComment_iff_mark :
    isClosedComment text = true ↔ closingMark <:+: (text ++ behind).drop openingMark.length := by
  obtain ⟨body, ⟨rfl, -⟩ | ⟨rfl, rfl, hb⟩⟩ := h
  · have hmark : closingMark <:+: body ++ closingMark ++ behind := List.infix_append _ _ _
    rw [List.append_assoc openingMark, List.append_assoc openingMark, List.drop_left,
      isClosedComment_iff]
    exact iff_of_true (List.suffix_append _ _) hmark
  · rw [List.append_nil, List.drop_left, isClosedComment_iff]
    exact iff_of_false (fun hs => hb hs.isInfix) hb

theorem isClosedComment_iff_between :
    isClosedComment text = true ↔ ∃ inner, text = openingMark ++ inner ++ closingMark := by
  have hbody : ∃ body, text = openingMark ++ body := by
    obtain ⟨body, ⟨rfl, -⟩ | ⟨rfl, -, -⟩⟩ := h
    · exact ⟨_, List.append_assoc _ _ _⟩
    · exact ⟨body, rfl⟩
  obtain ⟨body, rfl⟩ := hbody
  rw [isClosedComment_iff]
  refine ⟨fun ⟨inner, e⟩ => ⟨inner, by rw [List.append_assoc, e]⟩, fun ⟨inner, e⟩ => ⟨inner, ?_⟩⟩
  rw [List.append_assoc] at e
  exact (List.append_cancel_left e).symm

end IsComment

/-! ## What is reported -/

namespace Lexeme

variable {l : Lexeme} {behind : List Char}

/-- Where a lexeme is neither a string nor a comment, nothing is reported as unterminated. -/
theorem kind_of_mem_problems {source : String} {p : Problem} (hk : l.kind.isString = false)
    (hc : l.kind ≠ .comment) (h : p ∈ l.problems source) :
    p.kind ≠ .unterminatedString ∧ p.kind ≠ .unterminatedComment := by
  unfold problems at h
  split at h
  · rename_i e
    rw [e] at hk
    contradiction
  · contradiction
  · contradiction
  · contradiction
  · rename_i e
    rw [e] at hk
    contradiction
  · rw [List.mem_singleton.1 h]
    exact ⟨nofun, nofun⟩
  · split at h
    all_goals
      rw [List.mem_singleton.1 h]
      exact ⟨nofun, nofun⟩

theorem problems_of_isString (hr : ReadAs l.text.toList l.kind behind) (hk : l.kind.isString = true)
    (source : String) :
    l.problems source = if l.isCutString behind then [.ofParams .unterminatedString source l.span []]
      else [] := by
  rw [isCutString_eq hr, hk, Bool.true_and]
  obtain ⟨value, h | h⟩ := Kind.isString_iff.1 hk
  · simp only [problems, h]
    cases isClosedString l.text.toList <;> rfl
  · simp only [problems, h, isClosedString_of_cutString hr h]
    rfl

theorem isCutComment_eq (hr : ReadAs l.text.toList l.kind behind) :
    l.isCutComment behind = (l.kind == .comment && !isClosedComment l.text.toList) := by
  by_cases hk : l.kind = .comment
  · rw [hk] at hr
    have hclosed : isClosedComment l.text.toList =
        decide (closingMark <:+: (l.text.toList ++ behind).drop openingMark.length) := by
      rw [Bool.eq_iff_iff, decide_eq_true_iff]
      exact IsComment.isClosedComment_iff_mark hr.describes
    rw [isCutComment, hclosed]
  · rw [isCutComment, beq_eq_false_iff_ne.2 hk, Bool.false_and, Bool.false_and]

theorem problems_of_comment (hr : ReadAs l.text.toList l.kind behind) (hk : l.kind = .comment)
    (source : String) :
    l.problems source = if l.isCutComment behind then [.ofParams .unterminatedComment source l.span []]
      else [] := by
  rw [isCutComment_eq hr, hk]
  simp only [problems, hk]
  cases isClosedComment l.text.toList <;> rfl

variable {source : String}

/-- A string reports that it was cut off, and nothing else reports this of a string. -/
theorem filter_unterminatedString (hr : ReadAs l.text.toList l.kind behind) :
    (l.problems source).filter (·.kind == .unterminatedString) =
      if l.isCutString behind then [.ofParams .unterminatedString source l.span []] else [] := by
  cases hk : l.kind.isString with
  | true =>
    rw [problems_of_isString hr hk]
    split <;> rfl
  | false =>
    rw [isCutString_eq hr, hk]
    refine List.filter_eq_nil_iff.2 fun p hp e => ?_
    by_cases hc : l.kind = .comment
    · rw [problems_of_comment hr hc] at hp
      split at hp
      · rw [List.mem_singleton.1 hp] at e
        contradiction
      · contradiction
    · exact (kind_of_mem_problems hk hc hp).1 (eq_of_beq e)

/-- And so does a comment. -/
theorem filter_unterminatedComment (hr : ReadAs l.text.toList l.kind behind) :
    (l.problems source).filter (·.kind == .unterminatedComment) =
      if l.isCutComment behind then [.ofParams .unterminatedComment source l.span []] else [] := by
  by_cases hc : l.kind = .comment
  · rw [problems_of_comment hr hc]
    split <;> rfl
  · rw [isCutComment_eq hr, beq_eq_false_iff_ne.2 hc]
    refine List.filter_eq_nil_iff.2 fun p hp e => ?_
    cases hk : l.kind.isString with
    | true =>
      rw [problems_of_isString hr hk] at hp
      split at hp
      · rw [List.mem_singleton.1 hp] at e
        contradiction
      · contradiction
    | false => exact (kind_of_mem_problems hk hc hp).2 (eq_of_beq e)

/-- Where each lexeme reports one problem of a kind if it is cut off, the row of them does. -/
theorem filter_flatMap_problems {kind : ProblemKind} {cut : Lexeme → List Char → Bool}
    {ls : List Lexeme}
    (h : ∀ x ∈ withBehind ls, (x.1.problems source).filter (·.kind == kind) =
      if cut x.1 x.2 then [.ofParams kind source x.1.span []] else []) :
    (ls.flatMap (problems source)).filter (·.kind == kind) =
      ((withBehind ls).filter fun x => cut x.1 x.2).map fun x => .ofParams kind source x.1.span [] := by
  induction ls with
  | nil => rfl
  | cons l ls ih =>
    obtain ⟨hl, hls⟩ := List.forall_mem_cons.1 h
    rw [List.flatMap_cons, List.filter_append, ih hls, hl, withBehind]
    cases hc : cut l (textOf ls) with
    | true => rw [List.filter_cons, hc]; rfl
    | false => rw [List.filter_cons, hc]; rfl

/-- What the text of a lexeme tells of its end, and how that was reached in front of `behind`. -/
structure TellsEnd (l : Lexeme) (behind : List Char) : Prop where
  /-- The text of a string shows whether its quote ended it. -/
  string : l.kind.isString = true →
    (isClosedString l.text.toList = true ↔ l.stringEnd? behind = some .closed)
  /-- That is the quote behind the units of the string. -/
  units : l.kind.isString = true → (isClosedString l.text.toList = true ↔
    ∃ quote body, StringBody quote body ∧ l.text.toList = quote :: (body ++ [quote]))
  /-- The text of a comment shows whether a closing mark follows the opening one. -/
  comment : l.kind = .comment → (isClosedComment l.text.toList = true ↔
    closingMark <:+: (l.text.toList ++ behind).drop openingMark.length)
  /-- That mark does not overlap the opening one. -/
  between : l.kind = .comment → (isClosedComment l.text.toList = true ↔
    ∃ inner, l.text.toList = openingMark ++ inner ++ closingMark)

theorem ReadAs.tellsEnd (hr : ReadAs l.text.toList l.kind behind) : l.TellsEnd behind where
  string := isClosedString_iff_stringEnd hr
  units := isClosedString_iff_units hr
  comment := fun hk => IsComment.isClosedComment_iff_mark (hk ▸ hr).describes
  between := fun hk => IsComment.isClosedComment_iff_between (hk ▸ hr).describes

end Lexeme

open Lexeme in
/-- The text of every string and comment tells whether it was closed where it stands. So, where the
    nesting limit is kept, one problem is reported for each string that its quote does not end and one
    for each comment without a closing mark, and no others of these kinds. -/
theorem tokenize_unterminated (source : String) (text : List Char) (options : Options) :
    let lexemes := withBehind (scan .start text)
    let problems := (tokenize source text options).problems
    (∀ x ∈ lexemes, x.1.TellsEnd x.2) ∧
      ((tokenize source text options).tooDeep = none →
        (problems.filter (·.kind == .unterminatedString) =
          (lexemes.filter fun x => x.1.isCutString x.2).map
            fun x => .ofParams .unterminatedString source x.1.span []) ∧
        (problems.filter (·.kind == .unterminatedComment) =
          (lexemes.filter fun x => x.1.isCutComment x.2).map
            fun x => .ofParams .unterminatedComment source x.1.span [])) := by
  have hread := readAs_of_scan .start text
  refine ⟨fun x hx => (hread x hx).tellsEnd, fun h => ?_⟩
  obtain ⟨hd, e⟩ := tokenize_eq h
  rw [e, TokenStream.ofLexemes_problems hd]
  exact ⟨filter_flatMap_problems fun x hx => filter_unterminatedString (hread x hx),
    filter_flatMap_problems fun x hx => filter_unterminatedComment (hread x hx)⟩

/-- Backslashes, quotes and line ends in strings: two that are closed, two that a newline cuts off, and
    one inside a comment that the end of the text cuts off. -/
def looseEnds : List Char := "'a\\\\' \"b\\\"\\\n\" '\\\n\\41\r\n\\' \n url('c\n /*/ \"d\\\"".toList

open Lexeme in
theorem tokenize_unterminated_looseEnds :
    let lexemes := withBehind (scan .start looseEnds)
    let problems := (tokenize "loose.css" looseEnds .standard).problems
    (∀ x ∈ lexemes, x.1.TellsEnd x.2) ∧
      (problems.filter (·.kind == .unterminatedString) =
        (lexemes.filter fun x => x.1.isCutString x.2).map
          fun x => .ofParams .unterminatedString "loose.css" x.1.span []) ∧
      (problems.filter (·.kind == .unterminatedComment) =
        (lexemes.filter fun x => x.1.isCutComment x.2).map
          fun x => .ofParams .unterminatedComment "loose.css" x.1.span []) ∧
      (lexemes.filterMap fun x => x.1.stringEnd? x.2) = [.closed, .closed, .newline, .newline] ∧
      (lexemes.filter fun x => x.1.isCutComment x.2).length = 1 := by
  obtain ⟨htells, hreports⟩ := tokenize_unterminated "loose.css" looseEnds .standard
  obtain ⟨hstrings, hcomments⟩ := hreports (by decide +kernel)
  exact ⟨htells, hstrings, hcomments, by decide +kernel, by decide +kernel⟩

end Stylesheet
