import Stylesheet.Proofs.Written.Document
import Stylesheet.Proofs.Written.Token

/-!
# The lexemes of plain pieces

Outside values nothing is escaped: a plain name, an address or an attribute value stands in the text
as it is. Each of these pieces is one lexeme where something follows that does not go on with it
(`EndsName`).
-/

namespace Stylesheet

/-- A character that goes on with no name and makes none a function. -/
def isNameEnd (c : Char) : Bool := !isNameChar c && c != '\\' && c != '(' && c != '>'

/-- A text in front of which a name ends. -/
def EndsName (rest : List Char) : Prop := rest.head?.all isNameEnd = true

theorem EndsName.cons {c : Char} (h : isNameEnd c = true) (rest : List Char) :
    EndsName (c :: rest) := h

theorem EndsName.name {rest : List Char} (h : EndsName rest) : name rest = ([], rest) := by
  cases rest with
  | nil => rw [Stylesheet.name]
  | cons c rest =>
    have h : isNameEnd c = true := h
    simp only [isNameEnd, Bool.and_eq_true, Bool.not_eq_true', bne_iff_ne] at h
    exact name_stop h.1.1.1 h.1.1.2 rest

theorem EndsName.head?_ne {rest : List Char} (h : EndsName rest) :
    rest.head? ≠ some '(' ∧ rest.head? ≠ some '>' := by
  constructor <;> intro e <;> rw [EndsName, e] at h <;> exact absurd h (by decide)

/-- A text that does not begin with a blank. -/
def StartsSolid (text : List Char) : Prop := ∃ c cs, text = c :: cs ∧ isBlank c = false

theorem StartsSolid.cons {c : Char} (h : isBlank c = false) (rest : List Char) :
    StartsSolid (c :: rest) := ⟨c, rest, rfl, h⟩

theorem StartsSolid.append {text : List Char} (h : StartsSolid text) (rest : List Char) :
    StartsSolid (text ++ rest) := by
  obtain ⟨c, cs, rfl, hc⟩ := h
  exact ⟨c, cs ++ rest, rfl, hc⟩

theorem StartsSolid.plain {s : String} (h : isPlainName s = true) : StartsSolid s.toList := by
  obtain ⟨c, cs, e, hc, -⟩ := exists_of_isPlainName h
  refine ⟨c, cs, e, Bool.eq_false_iff.2 fun hb => ?_⟩
  rcases Lexeme.isBlank_cases hb with rfl | rfl | rfl | rfl | rfl <;> contradiction

theorem StartsValue.startsSolid {text : List Char} (h : StartsValue text) : StartsSolid text := by
  obtain ⟨c, cs, e, hc, -⟩ := h
  exact ⟨c, cs, e, hc⟩

namespace Lexeme

variable {s : String} {rest : List Char}

theorem readAs_plain (h : isPlainName s = true) (hr : EndsName rest) :
    ReadAs s.toList (.token (.ident s)) rest := by
  have hn := isName_of_isPlainName h
  obtain ⟨hp, hg⟩ := hr.head?_ne
  have hread : ReadAs (writeIdent s.toList ++ []) (.token (.ident s)) rest :=
    readAs_writeIdent hn hr.name hg (identLike_ident hn hr.name hp)
  rwa [List.append_nil, writeIdent_plain h] at hread

/-- A plain name with a parenthesis behind it. -/
theorem readAs_plainFunction (h : isPlainName s = true) (hu : sameWord s "url" = false)
    (rest : List Char) : ReadAs (s.toList ++ ['(']) (.token (.function s)) rest := by
  have hread := readAs_function (isName_of_isPlainName h) hu rest
  rwa [writeIdent_plain h] at hread

theorem name_plain (h : isPlainName s = true) (hr : EndsName rest) :
    beginsName (s.toList ++ rest) = true ∧ name (s.toList ++ rest) = (s.toList, rest) := by
  have hn := isName_of_isPlainName h
  have hb := beginsName_writeIdent hn.ne_nil rest
  have hw := name_writeIdent hn.noNul rest
  rw [hr.name, List.append_nil] at hw
  rw [writeIdent_plain h] at hb hw
  exact ⟨hb, hw⟩

theorem readAs_atKeyword (h : isPlainName s = true) (hr : EndsName rest) :
    ReadAs ('@' :: s.toList) (.token (.atKeyword s)) rest := by
  refine ⟨'@', s.toList, rfl, ?_⟩
  obtain ⟨hb, hn⟩ := name_plain h hr
  rw [next_punctuation (by decide) (by rfl) (by decide) (by rfl)]
  simp [punctuation, atToken, hb, hn]

theorem readAs_hash (h : isPlainName s = true) (hr : EndsName rest) :
    ReadAs ('#' :: s.toList) (.token (.hash s true)) rest := by
  refine ⟨'#', s.toList, rfl, ?_⟩
  obtain ⟨hb, hn⟩ := name_plain h hr
  rw [next_punctuation (by decide) (by rfl) (by decide) (by rfl)]
  simp [punctuation, hashToken, hb, hn]

/-- A dot in front of a name; in front of a digit it would begin a number. -/
theorem readAs_dot (h : isPlainName s = true) : ReadAs ['.'] (.token .dot) (s.toList ++ rest) := by
  obtain ⟨c, cs, e, hc, -⟩ := exists_of_isPlainName h
  have hd := isDigit_eq_false_of_isAlpha hc
  apply readAs_mark
  rw [e, List.cons_append, next_punctuation (by decide) _ (by decide) (by rfl)]
  · rfl
  · simp [splitSign, startsMagnitude, startsDigit, hd]

/-- A bar that begins no comparison. -/
theorem readAs_bar (h : rest.head? ≠ some '=') : ReadAs ['|'] (.token .bar) rest := by
  apply readAs_mark
  rw [next_punctuation (by decide) (by rfl) (by decide) (by rfl)]
  simp [punctuation, comparisonToken, h]

/-- An asterisk that begins no comparison. -/
theorem readAs_asterisk (h : rest.head? ≠ some '=') : ReadAs ['*'] (.token .asterisk) rest := by
  apply readAs_mark
  rw [next_punctuation (by decide) (by rfl) (by decide) (by rfl)]
  simp [punctuation, comparisonToken, h]

theorem readAs_comparison (op : Comparison) (rest : List Char) :
    ReadAs op.toText.toList (.token (.comparison op)) rest := by
  cases op with
  | equals => exact readAs_mark rfl
  | includes | dashMatch | beginsWith | endsWith | contains => exact ⟨_, _, rfl, rfl⟩

theorem behindIgnored_name {cs : List Char} (h : beginsName cs = true) : behindIgnored cs = cs := by
  cases cs with
  | nil => rw [behindIgnored]
  | cons c rest =>
    have hs : (c == '/' && rest.head? == some '*') = false := by
      by_cases e : c = '/'
      · rw [e] at h
        simp [beginsName, isNameStart, nul, isASCII] at h
      · simp [e]
    rw [behindIgnored, if_neg (by simp [not_isBlank_of_beginsName h]), hs, if_neg (by simp)]

theorem readAs_important (rest : List Char) :
    ReadAs "!important".toList (.token .important) (';' :: rest) := by
  have hname : isPlainName "important" = true := by decide
  obtain ⟨hb, hn⟩ := name_plain hname (EndsName.cons (c := ';') (by decide) rest)
  refine ⟨'!', "important".toList, rfl, ?_⟩
  have hw : important? ("important".toList ++ ';' :: rest) = some (';' :: rest) := by
    rw [important?, behindIgnored_name hb, hn, hb]
    dsimp only
    rw [String.ofList_toList]
    rfl
  rw [next_punctuation (by decide) (by rfl) (by decide) (by rfl), punctuation, hw]

/-- Newlines are one blank. -/
theorem readAs_newlines (n : Nat) {rest : List Char}
    (h : ∀ c ∈ rest.head?, isBlank c = false) :
    ReadAs (List.replicate (n + 1) '\n') (.token .whitespace) rest := by
  refine ⟨'\n', List.replicate n '\n', rfl, ?_⟩
  have hd : (List.replicate n '\n' ++ rest).dropWhile isBlank = rest := by
    rw [List.dropWhile_append_of_pos (by simp +contextual [isBlank])]
    cases rest with
    | nil => rfl
    | cons c rest => rw [List.dropWhile_cons_of_neg (by simpa using h c rfl)]
  rw [next, if_pos (by decide), hd]

/-- A text between quotes, as it stands. -/
theorem readAs_bareString (h : isBareText s = true) (rest : List Char) :
    ReadAs ('"' :: (s.toList ++ ['"'])) (.token (.string s)) rest ∧
      isClosedString ('"' :: (s.toList ++ ['"'])) = true := by
  have hall : ∀ c ∈ s.toList, isBareChar c = true := List.all_eq_true.1 h
  have hread (rest : List Char) : quotedText '"' (s.toList ++ '"' :: rest) =
      ⟨s.toList, .closed, rest⟩ := by
    generalize s.toList = cs at hall
    induction cs with
    | nil =>
      rw [List.nil_append, quotedText]
      simp
    | cons c cs ih =>
      obtain ⟨hc, hcs⟩ := List.forall_mem_cons.1 hall
      simp only [isBareChar, Bool.and_eq_true, bne_iff_ne, Bool.not_eq_true'] at hc
      rw [List.cons_append, quotedText_cons hc.1.1.1 hc.1.2 hc.1.1.2 hc.2, ih hcs]
      rfl
  constructor
  · refine ⟨'"', s.toList ++ ['"'], rfl, ?_⟩
    rw [next_punctuation (by decide) (by rfl) (by decide) (by rfl), List.append_assoc,
      List.singleton_append]
    simp [punctuation, quotedToken, hread]
  · refine (isClosedString_iff_closed [] ?_ (Or.inl rfl)).2 ?_ <;>
      rw [List.append_nil, show s.toList ++ ['"'] = s.toList ++ '"' :: [] from rfl, hread]

end Lexeme

namespace Lexes

open Lexeme

variable {s : String} {rest : List Char}

theorem plain (h : isPlainName s = true) (hr : EndsName rest) :
    Lexes s.toList [.ident s] rest :=
  .of_readAs (readAs_plain h hr) rfl rfl nofun fun name e _ => by cases e; rfl

theorem bareString (h : isBareText s = true) (rest : List Char) :
    Lexes ('"' :: (s.toList ++ ['"'])) [.string s] rest :=
  .of_readAs (readAs_bareString h rest).1 rfl rfl (fun _ _ => (readAs_bareString h rest).2)
    fun _ e => by cases e

/-- A blank between two pieces. -/
theorem gap (h : StartsSolid rest) : Lexes [' '] [.whitespace] rest := by
  obtain ⟨c, cs, rfl, hc⟩ := h
  exact .blank hc cs

/-- Pieces one behind the other, each of which may be followed by the next. -/
theorem flatMap {α : Type} (text : α → List Char) (kinds : α → List TokenKind)
    (Follows : List Char → Prop) (xs : List α)
    (h : ∀ x ∈ xs, ∀ rest, Follows rest → Lexes (text x) (kinds x) rest)
    (hf : ∀ x ∈ xs, ∀ rest, Follows (text x ++ rest)) (rest : List Char) (hr : Follows rest) :
    Follows (xs.flatMap text ++ rest) ∧ Lexes (xs.flatMap text) (xs.flatMap kinds) rest := by
  induction xs with
  | nil => exact ⟨hr, .nil rest⟩
  | cons x xs ih =>
    obtain ⟨hx, hxs⟩ := List.forall_mem_cons.1 h
    obtain ⟨hfx, hfxs⟩ := List.forall_mem_cons.1 hf
    obtain ⟨hnext, htail⟩ := ih hxs hfxs
    rw [List.flatMap_cons, List.flatMap_cons]
    refine ⟨?_, (hx _ hnext).append htail⟩
    rw [List.append_assoc]
    exact hfx _

end Lexes

end Stylesheet
