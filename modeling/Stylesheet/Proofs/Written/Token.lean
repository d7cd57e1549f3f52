import Stylesheet.Proofs.Token.Stream
import Stylesheet.Proofs.Written.Lexeme
import Stylesheet.Proofs.Written.Row

/-!
# The tokens of a written value

`Value.kinds` lists the tokens that a value is written as, in parallel to `Value.toText`. A chunk of
text gives its tokens and nothing else where a text follows (`Lexes`): no problem is reported, and the
open blocks are the same behind it, so that chunks can be put side by side (`Lexes.append`) and
between brackets (`Lexes.block`). The induction over a value is `lexes_toText`.
-/

namespace Stylesheet

namespace Separator

/-- The tokens of a separator as it is written. -/
def kinds : Separator → List TokenKind
  | .comma => [.comma, .whitespace]
  | .space => [.whitespace]
  | .slash => [.slash]

end Separator

namespace Value

/-- The token of a number with its unit. -/
def numberKind (value : Single) (unit : Option String) : TokenKind :=
  match unit with
  | none => .number value
  | some u => if u = "%" then .percentage value else .dimension value u

mutual

/-- The tokens that a value is written as. -/
def kinds : Value → List TokenKind
  | .string content => [.string content]
  | .number value unit => [numberKind value unit]
  | .ident name => [.ident name]
  | .color c => [Lexeme.colorKind c]
  | .url address => [.url address]
  | .call name arguments =>
    .function name :: (joinedKinds .comma arguments ++ [.closing .paren])
  | .named name value => .ident name :: .comparison .equals :: kinds value
  | .list separator items => joinedKinds separator items

def joinedKinds (separator : Separator) : List Value → List TokenKind
  | [] => []
  | v :: rest => kinds v ++ tailKinds separator rest

def tailKinds (separator : Separator) : List Value → List TokenKind
  | [] => []
  | v :: rest => separator.kinds ++ kinds v ++ tailKinds separator rest

end

/-- The tokens of a row behind its first item. -/
def rowKinds (items : List (Separator × Value)) : List TokenKind :=
  items.flatMap fun p => p.1.kinds ++ p.2.kinds

mutual

/-- The tokens of a value are those of its row. -/
theorem kinds_row (v : Value) : v.kinds = v.row.1.kinds ++ rowKinds v.row.2 := by
  match v with
  | .list s (v :: rest) =>
    have hr : rowKinds (v.row.2 ++ rowTail s rest) = rowKinds v.row.2 ++ rowKinds (rowTail s rest) :=
      List.flatMap_append
    rw [row, kinds, joinedKinds, hr, ← tailKinds_rowTail s rest, ← List.append_assoc, ← kinds_row v]
  | .list _ [] | .string _ | .number _ _ | .ident _ | .color _ | .url _ | .call _ _ | .named _ _ =>
    rw [row]
    · exact (List.append_nil _).symm
    · intro _ _ _ e
      cases e

theorem tailKinds_rowTail (s : Separator) (items : List Value) :
    tailKinds s items = rowKinds (rowTail s items) := by
  match items with
  | [] => rfl
  | v :: rest =>
    have hr : rowKinds ((s, v.row.1) :: (v.row.2 ++ rowTail s rest)) =
        s.kinds ++ v.row.1.kinds ++ (rowKinds v.row.2 ++ rowKinds (rowTail s rest)) := by
      simp [rowKinds]
    rw [tailKinds, rowTail, hr, ← tailKinds_rowTail s rest, kinds_row v]
    simp only [List.append_assoc]

end

end Value

/-- The tokens that neither open nor close a block and hold no name and no string. -/
def TokenKind.isInert : TokenKind → Bool
  | .ident _ | .function _ | .string _ | .opening _ | .closing _ => false
  | _ => true

/-- A plain name that is an identifier stands in the text as it is. -/
def SpellsNames (tokens : List Token) : Prop :=
  ∀ t ∈ tokens, ∀ name, t.kind = .ident name → isPlainName name = true → t.text = name

theorem SpellsNames.append {ts us : List Token} (h : SpellsNames ts) (h' : SpellsNames us) :
    SpellsNames (ts ++ us) := fun t ht => (List.mem_append.1 ht).elim (h t) (h' t)

theorem SpellsNames.one {t : Token} (h : ∀ name, t.kind = .ident name → isPlainName name = true →
    t.text = name) : SpellsNames [t] := by
  intro u hu
  rw [List.mem_singleton.1 hu]
  exact h

/-- Where `rest` follows, `chunk` gives tokens of `kinds`, no problem, and leaves the blocks as they
    are. -/
def Lexes (chunk : List Char) (kinds : List TokenKind) (rest : List Char) : Prop :=
  ∀ (source : String) (limit : Nat) (blocks : List Block) (p : Position),
    TokenStream.isSilent blocks = false →
    (TokenStream.ofLexemes source limit blocks (Lexeme.scan p (chunk ++ rest))).tooDeep = none →
    ∃ tokens p', (tokens.map Token.kind = kinds ∧ SpellsNames tokens) ∧
      TokenStream.ofLexemes source limit blocks (Lexeme.scan p (chunk ++ rest)) =
        (TokenStream.ofLexemes source limit blocks (Lexeme.scan p' rest)).onto tokens []

namespace TokenStream

@[simp] theorem onto_tooDeep (tokens : List Token) (problems : List Problem) (s : TokenStream) :
    (s.onto tokens problems).tooDeep = s.tooDeep := rfl

theorem onto_nil (s : TokenStream) : s.onto [] [] = s := rfl

end TokenStream

namespace Lexes

open TokenStream Lexeme

theorem nil (rest : List Char) : Lexes [] [] rest :=
  fun _ _ _ p _ _ => ⟨[], p, ⟨rfl, fun _ h => absurd h List.not_mem_nil⟩, rfl⟩

/-- Chunks side by side. -/
theorem append {a b rest : List Char} {ks js : List TokenKind} (ha : Lexes a ks (b ++ rest))
    (hb : Lexes b js rest) : Lexes (a ++ b) (ks ++ js) rest := by
  intro source limit blocks p hs hd
  rw [List.append_assoc] at hd ⊢
  obtain ⟨ts, q, ht, e⟩ := ha source limit blocks p hs hd
  rw [e, onto_tooDeep] at hd
  obtain ⟨us, q', hu, e'⟩ := hb source limit blocks q hs hd
  refine ⟨ts ++ us, q', ⟨by rw [List.map_append, ht.1, hu.1], ht.2.append hu.2⟩, ?_⟩
  rw [e, e', onto_onto]
  rfl

/-- A lexeme that is a token by itself. -/
theorem of_readAs {text rest : List Char} {k : TokenKind} (h : ReadAs text (.token k) rest)
    (ho : k.opens? = none) (hc : k.isClosing = false)
    (hq : ∀ s, k = .string s → isClosedString text = true)
    (hn : ∀ name, k = .ident name → isPlainName name = true → text = name.toList) :
    Lexes text [k] rest := by
  intro source limit blocks p hs _
  rw [scan_readAs h]
  generalize hl : Lexeme.mk (.token k) (String.ofList text) ⟨p, p.after text⟩ = l
  have hk : l.kind = .token k := by rw [← hl]
  have hop : l.opens? = none := by rw [Lexeme.opens?, hk, ← ho]
  -- the token closes nothing, whatever is open
  have hcl : close l blocks = blocks := by
    match blocks with
    | [] => rfl
    | b :: outer =>
      have hb : l.closes b.bracket = false := by
        rw [closes, hk, beq_eq_false_iff_ne]
        intro e
        cases e
        contradiction
      simp only [close, hb, Bool.false_eq_true, ↓reduceIte]
  have hp : l.problems source = [] := by
    rw [Lexeme.problems, hk]
    split
    · rename_i e
      cases e
      rw [← hl, String.toList_ofList, if_pos (hq _ rfl)]
    · rfl
    all_goals rename_i e; cases e
  have htext : SpellsNames [⟨k, l.text, l.span⟩] := by
    refine .one fun name e hp => ?_
    rw [← hl]
    show String.ofList text = name
    rw [hn name e hp, String.ofList_toList]
  refine ⟨[⟨k, l.text, l.span⟩], p.after text, ⟨rfl, htext⟩, ?_⟩
  rw [ofLexemes, hop]
  simp only [hs, hcl, hp, Lexeme.token?, hk, Option.toList, Bool.false_eq_true, ↓reduceIte]

/-- A token that opens and closes nothing, and whose text is not asked for. -/
theorem of_inert {text rest : List Char} {k : TokenKind} (h : ReadAs text (.token k) rest)
    (hk : k.isInert = true) : Lexes text [k] rest := by
  refine .of_readAs h ?_ ?_ ?_ ?_
  · cases k <;> first | rfl | contradiction
  · cases k <;> first | rfl | contradiction
  · intro s e
    rw [e] at hk
    contradiction
  · intro name e
    rw [e] at hk
    contradiction

theorem ident {s : String} (h : IsName s) {rest : List Char} (hr : Delimited rest) :
    Lexes (writeIdent s.toList) [.ident s] rest := by
  refine .of_readAs (readAs_ident h hr) rfl rfl nofun fun name e hp => ?_
  cases e
  exact writeIdent_plain hp

theorem blank {c : Char} (h : isBlank c = false) (rest : List Char) :
    Lexes [' '] [.whitespace] (c :: rest) :=
  .of_inert (readAs_blank h) rfl

/-- A chunk between brackets. -/
theorem block {opener inner rest : List Char} {k : TokenKind} {b : Bracket} {ks : List TokenKind}
    (ho : ReadAs opener (.token k) (inner ++ (b.closer.toList ++ rest))) (hb : k.opens? = some b)
    (hu : ∀ (l : Lexeme) p, l.kind = .token k →
      l.quotedUrl? (scan p (inner ++ (b.closer.toList ++ rest))) = none)
    (hi : Lexes inner ks (b.closer.toList ++ rest)) :
    Lexes (opener ++ (inner ++ b.closer.toList)) (k :: (ks ++ [.closing b])) rest := by
  intro source limit blocks p hs hd
  have hc : ReadAs b.closer.toList (.token (.closing b)) rest := by
    cases b <;> exact readAs_mark rfl
  rw [List.append_assoc, List.append_assoc, scan_readAs ho] at hd ⊢
  generalize hl : Lexeme.mk (.token k) (String.ofList opener) ⟨p, p.after opener⟩ = l at hd ⊢
  have hk : l.kind = .token k := by rw [← hl]
  have hop : l.opens? = some b := by rw [Lexeme.opens?, hk, ← hb]
  have hq := hu l (p.after opener) hk
  rw [ofLexemes, hop] at hd ⊢
  dsimp only at hd ⊢
  by_cases hlim : limit ≤ blocks.length
  · rw [if_pos hlim] at hd
    contradiction
  · rw [if_neg hlim, hq] at hd ⊢
    dsimp only at hd ⊢
    rw [onto_tooDeep] at hd
    obtain ⟨ts, q, ht, e⟩ := hi source limit (⟨b, false⟩ :: blocks) (p.after opener) rfl hd
    -- the closing bracket ends the block and is a token of it
    have hopener : SpellsNames [⟨k, l.text, l.span⟩] := by
      refine .one fun name e => ?_
      cases (show k = .ident name from e)
      contradiction
    have hcloser : SpellsNames [⟨.closing b, String.ofList b.closer.toList,
        ⟨q, q.after b.closer.toList⟩⟩] := .one fun name e => by cases e
    refine ⟨⟨k, l.text, l.span⟩ :: (ts ++ [⟨.closing b, String.ofList b.closer.toList,
      ⟨q, q.after b.closer.toList⟩⟩]), q.after b.closer.toList,
      ⟨by simp [ht.1], hopener.append (ht.2.append hcloser)⟩, ?_⟩
    rw [e, scan_readAs hc, ofLexemes]
    simp only [Lexeme.opens?, TokenKind.opens?, isSilent, Lexeme.token?, hk, Lexeme.problems,
      close, closes, beq_self_eq_true, ↓reduceIte, Bool.false_eq_true, Option.toList, onto_onto]
    rfl

/-- An opening bracket begins no address. -/
theorem quotedUrl?_opening {l : Lexeme} {b : Bracket} (h : l.kind = .token (.opening b))
    (ls : List Lexeme) : l.quotedUrl? ls = none := by
  rw [quotedUrl?, h]

/-- The parts of a quoted address are found behind its function. -/
theorem quotedUrl?_kind {s : String} (t₀ t₁ t₂ : String) (s₀ s₁ s₂ : Span) (ls : List Lexeme) :
    (Lexeme.quotedUrl? ⟨.token (.function "url"), t₀, s₀⟩
      (⟨.token (.string s), t₁, s₁⟩ :: ⟨.token (.closing .paren), t₂, s₂⟩ :: ls)).map Token.kind =
      some (.url s) := by
  have hs : (TokenKind.string s == TokenKind.whitespace) = false := rfl
  have hp : (TokenKind.closing Bracket.paren == TokenKind.whitespace) = false := rfl
  simp only [quotedUrl?, show sameWord "url" "url" = true by decide, ↓reduceIte, quotedAddress?,
    isIgnorable, stringValue?, closes, List.dropWhile_cons, beq_self_eq_true, hs, hp,
    Bool.false_eq_true, Option.map_some]

/-- A quoted address is one token. -/
theorem quotedUrl {s : String} (h : nul ∉ s.toList) (rest : List Char) :
    Lexes ("url(".toList ++ (writeString s.toList ++ [')'])) [.url s] rest := by
  intro source limit blocks p hs hd
  have hu : ReadAs "url(".toList (.token (.function "url"))
      (writeString s.toList ++ ([')'] ++ rest)) := by
    rw [writeString, List.cons_append]
    exact readAs_url _
  have hc : isClosedString (String.ofList (writeString s.toList)).toList = true := by
    rw [String.toList_ofList]
    exact isClosedString_writeString h
  rw [List.append_assoc, List.append_assoc, scan_readAs hu, scan_readAs (readAs_string h _),
    scan_readAs (readAs_closingParen rest)] at hd ⊢
  generalize hq : ((p.after "url(".toList).after (writeString s.toList)).after [')'] = q at hd ⊢
  obtain ⟨token, ht, hk⟩ := Option.map_eq_some_iff.1 (quotedUrl?_kind (s := s)
    (String.ofList "url(".toList) (String.ofList (writeString s.toList)) (String.ofList [')'])
    ⟨p, p.after "url(".toList⟩
    ⟨p.after "url(".toList, (p.after "url(".toList).after (writeString s.toList)⟩
    ⟨(p.after "url(".toList).after (writeString s.toList), q⟩ (scan q rest))
  have hnames : SpellsNames [token] := .one fun name e => by
    rw [hk] at e
    contradiction
  refine ⟨[token], q, ⟨by rw [List.map_singleton, hk], hnames⟩, ?_⟩
  rw [ofLexemes] at hd ⊢
  dsimp only [Lexeme.opens?, TokenKind.opens?] at hd ⊢
  by_cases hlim : limit ≤ blocks.length
  · rw [if_pos hlim] at hd
    contradiction
  · rw [if_neg hlim, ht]
    -- the string and the parenthesis stand in a silent block
    dsimp only
    rw [ofLexemes, ofLexemes]
    simp only [Lexeme.opens?, TokenKind.opens?, isSilent, close, closes, Lexeme.problems, hc,
      ↓reduceIte, onto_nil]
    rfl

end Lexes

/-- A whole text gives its tokens with an `eof` behind them, and no problem. -/
theorem tokenize_of_lexes {text : List Char} {ks : List TokenKind} (h : Lexes text ks [])
    {source : String} {options : Options} (hd : (tokenize source text options).tooDeep = none) :
    ∃ ts stop, tokenize source text options = ⟨ts ++ [TokenStream.eofAt stop], [], none⟩ ∧
      ts.map Token.kind = ks ∧ SpellsNames ts ∧ ∀ t ∈ ts, t.kind ≠ .eof := by
  obtain ⟨hn, e⟩ := tokenize_eq hd
  have hlex := h source options.maxNestingDepth [] .start rfl
  rw [List.append_nil] at hlex
  obtain ⟨ts, p, ⟨hk, hs⟩, he⟩ := hlex hn
  rw [Lexeme.scan, TokenStream.ofLexemes] at he
  have ht := TokenStream.ofLexemes_ne_eof source options.maxNestingDepth [] _
    (Lexeme.scan_ne_eof .start text)
  rw [he] at e ht
  refine ⟨ts, lexemeEnd text, ?_, hk, hs, fun t htm => ht t (List.mem_append_left _ htm)⟩
  rw [e]
  simp [TokenStream.onto]

/-! ## Values -/

/-- A text that a separator may stand in front of: no blank begins it, and no mark that would make a
    slash a comment. -/
def StartsValue (text : List Char) : Prop :=
  ∃ c cs, text = c :: cs ∧ isBlank c = false ∧ c ≠ '*'

namespace StartsValue

theorem append {text : List Char} (h : StartsValue text) (rest : List Char) :
    StartsValue (text ++ rest) := by
  obtain ⟨c, cs, rfl, hb, hs⟩ := h
  exact ⟨c, cs ++ rest, rfl, hb, hs⟩

theorem writeIdent {s : String} (h : s.toList ≠ []) : StartsValue (writeIdent s.toList) := by
  have hb := beginsName_writeIdent h []
  obtain ⟨c, cs, hc⟩ := List.exists_cons_of_ne_nil h
  obtain ⟨d, ds, hd, -⟩ := writeIdent_first c cs
  rw [← hc] at hd
  rw [List.append_nil, hd] at hb
  refine ⟨d, ds, hd, Lexeme.not_isBlank_of_beginsName hb, ?_⟩
  intro he
  subst he
  simp [beginsName, isNameStart, nul, isASCII] at hb

theorem number (x : Single) : StartsValue x.toText.toList := by
  cases x with
  | nan => exact ⟨'N', _, rfl, rfl, by decide⟩
  | infinite negative =>
    cases negative with
    | false => exact ⟨'i', _, rfl, rfl, by decide⟩
    | true => exact ⟨'-', _, rfl, rfl, by decide⟩
  | finite =>
    obtain ⟨c, cs, e, hc⟩ := Lexeme.toText_ne_nil (x := .finite ..) trivial
    refine ⟨c, cs, e, ?_, ?_⟩
    · rcases hc with rfl | hc
      · rfl
      · exact Lexeme.not_isBlank_of_isDigit hc
    · intro he
      subst he
      rcases hc with hc | hc <;> contradiction

end StartsValue

open Value

theorem startsValue_toText (named : Bool) (v : Value) (h : v.IsShaped named) :
    StartsValue v.toText.toList := by
  match v, h with
  | .string content, _ => exact ⟨'"', _, by simp [toText, writeString]; rfl, rfl, by decide⟩
  | .number value unit, _ =>
    cases unit with
    | none => exact .number value
    | some u =>
      rw [toText, numberText, String.toList_append]
      exact (StartsValue.number value).append _
  | .ident name, h =>
    rw [IsShaped] at h
    simpa [toText] using StartsValue.writeIdent h
  | .color c, _ =>
    rw [toText, Lexeme.toText_color]
    exact ⟨'#', _, rfl, rfl, by decide⟩
  | .url address, _ => exact ⟨'u', _, by simp [toText]; rfl, rfl, by decide⟩
  | .call name arguments, h =>
    rw [IsShaped] at h
    simpa [toText] using (StartsValue.writeIdent h.1).append _
  | .named name value, h =>
    rw [IsShaped] at h
    simpa [toText] using (StartsValue.writeIdent h.2.1).append _
  | .list separator (v :: rest), h =>
    rw [IsShaped, ShapedItems] at h
    rw [toText, joined, String.toList_append]
    exact (startsValue_toText named v h.2.1).append _
  | .list separator [], h =>
    rw [IsShaped] at h
    exact absurd h.1 (by simp)

theorem lexes_separator (s : Separator) {rest : List Char} (h : StartsValue rest) :
    Lexes s.toText.toList s.kinds rest := by
  obtain ⟨c, cs, rfl, hb, hs⟩ := h
  cases s with
  | comma =>
    have comma : Lexes [','] [.comma] ([' '] ++ c :: cs) := .of_inert (Lexeme.readAs_comma _) rfl
    exact comma.append (.blank hb cs)
  | space => exact .blank hb cs
  | slash => exact .of_inert (Lexeme.readAs_slash (by simpa using hs)) rfl

theorem delimited_joinedTail (s : Separator) (items : List Value) {rest : List Char}
    (h : Delimited rest) : Delimited ((joinedTail s.toText items).toList ++ rest) := by
  match items with
  | [] => simpa [joinedTail] using h
  | v :: items =>
    rw [joinedTail, String.toList_append, String.toList_append]
    cases s <;> simp [Separator.toText, Delimited, delimiters]

theorem delimited_rowText (items : List (Separator × Value)) {rest : List Char}
    (h : Delimited rest) : Delimited (rowText items ++ rest) := by
  match items with
  | [] => exact h
  | (s, v) :: items =>
    rw [rowText, List.flatMap_cons]
    cases s <;> simp [Separator.toText, Delimited, delimiters]

/-- A number with its unit is one lexeme, though the number may be read as another one. -/
theorem readAs_numberText {x : Single} (hx : x.IsFinite) {unit : Option String}
    (hu : ∀ u ∈ unit, IsName u) {rest : List Char} (hr : Delimited rest) :
    Lexeme.ReadAs (numberText x unit).toList (.token (numberKind (x.reread unit) unit)) rest := by
  match unit, hu with
  | none, _ =>
    rw [numberText, numberKind, ← List.append_nil x.toText.toList]
    exact Lexeme.readAs_numeric hx (numericToken_number hx hr)
  | some u, hu =>
    rw [numberText, numberKind, String.toList_append]
    by_cases hp : u = "%"
    · subst hp
      exact Lexeme.readAs_numeric hx (numericToken_percentage hx)
    · rw [if_neg hp, if_neg hp, String.toList_ofList]
      exact Lexeme.readAs_numeric hx (numericToken_dimension hx (hu u rfl) hp hr)

/-- A number that reads back is one lexeme with its unit. -/
theorem readAs_number {x : Single} (hx : x.IsFinite) (hb : x.ReadsBack) {unit : Option String}
    (hu : ∀ u ∈ unit, IsName u) {rest : List Char} (hr : Delimited rest) :
    Lexeme.ReadAs (numberText x unit).toList (.token (numberKind x unit)) rest := by
  have hread := readAs_numberText hx hu hr
  rwa [hb.reread unit] at hread

theorem numberKind_cases (x : Single) (unit : Option String) :
    (numberKind x unit).isInert = true ∧ numberKind x unit ≠ .whitespace := by
  match unit with
  | none => exact ⟨rfl, by simp [numberKind]⟩
  | some u =>
    rw [numberKind]
    split <;> simp [TokenKind.isInert]

/-! ## Calls -/

/-- The text of arguments that begin with a string: the string, and a further item behind it. -/
theorem Value.OpensQuoted.exists_text {arguments : List Value} (h : OpensQuoted arguments) :
    ∃ s p items, row (.list .comma arguments) = (.string s, p :: items) ∧
      (joined Separator.comma.toText arguments).toList = writeString s.toList ++
        (p.1.toText.toList ++ (p.2.toText.toList ++ rowText items)) := by
  obtain ⟨s, p, items, e⟩ := h
  have hrow : rowText (p :: items) = p.1.toText.toList ++ (p.2.toText.toList ++ rowText items) := by
    rw [rowText, List.flatMap_cons, List.append_assoc, rowText]
  refine ⟨s, p, items, e, ?_⟩
  calc (joined Separator.comma.toText arguments).toList
      = (toText (.list .comma arguments)).toList := by rw [toText]
    _ = (toText (.string s)).toList ++ rowText (p :: items) := by rw [toText_row, e]
    _ = _ := by rw [hrow, toText, String.toList_ofList]

/-- The function of a call. -/
theorem readAs_call {name : String} {arguments : List Value} (hn : IsName name)
    (hu : sameWord name "url" = true → OpensQuoted arguments) (rest : List Char) :
    Lexeme.ReadAs (writeIdent name.toList ++ ['(']) (.token (.function name))
      ((joined Separator.comma.toText arguments).toList ++ rest) := by
  by_cases h : sameWord name "url" = true
  · obtain ⟨s, p, items, -, e⟩ := (hu h).exists_text
    rw [e, writeString]
    exact Lexeme.readAs_function_quote hn _
  · exact Lexeme.readAs_function hn (by simpa using h) _

/-- The first lexeme of an item is a token that neither separates nor closes. -/
theorem exists_readAs_item {named : Bool} {v : Value} (h : v.IsShaped named) (ha : v.rank = 3)
    (hc : v.IsClean) {rest : List Char} (hr : Delimited rest) :
    ∃ text more k, v.toText.toList = text ++ more ∧
      Lexeme.ReadAs text (.token k) (more ++ rest) ∧ k ≠ .whitespace ∧ k ≠ .closing .paren := by
  match v, h, ha, hc with
  | .string content, _, _, hc =>
    have hn : nul ∉ content.toList := hc.texts content (by simp [texts])
    exact ⟨_, [], _, by simp [toText], Lexeme.readAs_string hn rest, by simp, by simp⟩
  | .number value unit, h, _, hc =>
    rw [IsShaped] at h
    obtain ⟨hx, hb⟩ := hc.numbers value (by simp [numbers])
    have hu : ∀ u ∈ unit, IsName u := fun u hu => ⟨h u hu, hc.texts u (by simpa [texts] using hu)⟩
    obtain ⟨hi, hw⟩ := numberKind_cases value unit
    refine ⟨_, [], _, by simp [toText], readAs_number hx hb hu hr, hw, fun e => ?_⟩
    rw [e] at hi
    contradiction
  | .ident name, h, _, hc =>
    have hn : IsName name := ⟨h, hc.texts name (by simp [texts])⟩
    exact ⟨_, [], _, by simp [toText], Lexeme.readAs_ident hn hr, by simp, by simp⟩
  | .color c, _, _, _ =>
    exact ⟨_, [], _, by simp [toText], Lexeme.readAs_color c hr, by simp [Lexeme.colorKind],
      by simp [Lexeme.colorKind]⟩
  | .url address, _, _, _ =>
    refine ⟨"url(".toList, writeString address.toList ++ [')'], .function "url", by simp [toText],
      ?_, by simp, by simp⟩
    rw [writeString]
    exact Lexeme.readAs_url _
  | .call name arguments, h, _, hc =>
    rw [IsShaped] at h
    refine ⟨writeIdent name.toList ++ ['('], (joined Separator.comma.toText arguments).toList ++
      [')'], .function name, by simp [toText, Separator.toText], ?_, by simp, by simp⟩
    rw [List.append_assoc]
    exact readAs_call ⟨h.1, hc.arguments.1⟩ h.2.2.1 _
  | .named name value, h, _, hc =>
    rw [IsShaped] at h
    have hn : IsName name := ⟨h.2.1, hc.named.1⟩
    have hd : Delimited ('=' :: value.toText.toList ++ rest) := by simp [Delimited, delimiters]
    exact ⟨_, '=' :: value.toText.toList, _, by simp [toText], Lexeme.readAs_ident hn hd, by simp,
      by simp⟩
  | .list s _, _, ha, _ => exact absurd ha (Nat.ne_of_lt (strength_lt s))

/-- Where a further item stands behind a string, no parenthesis closes the address. -/
theorem quotedAddress?_item {named : Bool} {s : String} (hs : nul ∉ s.toList) {separator : Separator}
    {v : Value} (h : v.IsShaped named) (ha : v.rank = 3) (hc : v.IsClean) {rest : List Char}
    (hr : Delimited rest) (p : Position) :
    Lexeme.quotedAddress? (Lexeme.scan p (writeString s.toList ++
      (separator.toText.toList ++ (v.toText.toList ++ rest)))) = none := by
  have hv := (startsValue_toText named v h).append rest
  obtain ⟨text, more, k, e, hk, hw, hp⟩ := exists_readAs_item h ha hc hr
  obtain ⟨c, cs, hcs, hb, hstar⟩ := hv
  rw [Lexeme.scan_readAs (Lexeme.readAs_string hs _), Lexeme.quotedAddress?]
  have hstring : (TokenKind.string s == TokenKind.whitespace) = false := rfl
  have hslash : (TokenKind.slash == TokenKind.whitespace) = false := rfl
  have hcomma : (TokenKind.comma == TokenKind.whitespace) = false := rfl
  cases separator with
  | comma =>
    have comma : Lexeme.ReadAs [','] (.token .comma) (' ' :: (v.toText.toList ++ rest)) :=
      Lexeme.readAs_comma _
    rw [show Separator.comma.toText.toList ++ (v.toText.toList ++ rest) =
      [','] ++ ' ' :: (v.toText.toList ++ rest) from rfl, Lexeme.scan_readAs comma]
    simp [Lexeme.isIgnorable, hstring, hcomma, Lexeme.stringValue?, Lexeme.closes]
  | slash =>
    have slash : Lexeme.ReadAs ['/'] (.token .slash) (v.toText.toList ++ rest) :=
      Lexeme.readAs_slash (by simpa [hcs] using hstar)
    rw [show Separator.slash.toText.toList = ['/'] from rfl, Lexeme.scan_readAs slash]
    simp [Lexeme.isIgnorable, hstring, hslash, Lexeme.stringValue?, Lexeme.closes]
  | space =>
    have blank : Lexeme.ReadAs [' '] (.token .whitespace) (v.toText.toList ++ rest) := by
      rw [hcs]
      exact Lexeme.readAs_blank hb
    rw [show Separator.space.toText.toList = [' '] from rfl, Lexeme.scan_readAs blank, e,
      List.append_assoc, Lexeme.scan_readAs hk]
    simp [Lexeme.isIgnorable, hstring, Lexeme.stringValue?, Lexeme.closes, hw, hp]

/-- The function of a call begins no address. -/
theorem quotedUrl?_call {name : String} {arguments : List Value}
    (hu : sameWord name "url" = true → OpensQuoted arguments)
    (ha : ShapedItems true Separator.comma.strength arguments)
    (hc : (Value.list .comma arguments).IsClean) (rest : List Char) {l : Lexeme} (hl : l.kind = .token (.function name)) (p : Position) :
    l.quotedUrl? (Lexeme.scan p ((joined Separator.comma.toText arguments).toList ++
      ([')'] ++ rest))) = none := by
  rw [Lexeme.quotedUrl?, hl]
  dsimp only
  split
  · rename_i h
    obtain ⟨s, q, items, hrow, e⟩ := (hu h).exists_text
    have hmem := row_list_mem ha q (by rw [hrow]; exact List.mem_cons_self)
    obtain ⟨hfirst, hrest⟩ := row_isClean hc
    rw [hrow] at hfirst hrest
    have hs : nul ∉ s.toList := hfirst.texts s (by simp [texts])
    have hd : Delimited (rowText items ++ ([')'] ++ rest)) :=
      delimited_rowText items (by simp [Delimited, delimiters])
    rw [e]
    simp only [List.append_assoc]
    rw [quotedAddress?_item hs hmem.1 hmem.2 (hrest q List.mem_cons_self) hd]
    rfl
  · rfl

mutual

/-- A value is written as its tokens. -/
theorem lexes_toText (named : Bool) (v : Value) (h : v.IsShaped named) (hc : v.IsClean)
    {rest : List Char} (hr : Delimited rest) : Lexes v.toText.toList v.kinds rest := by
  match v, h, hc with
  | .string content, _, hc =>
    have hn : nul ∉ content.toList := hc.texts content (by simp [texts])
    rw [toText, kinds, String.toList_ofList]
    exact .of_readAs (Lexeme.readAs_string hn rest) rfl rfl
      (fun _ _ => Lexeme.isClosedString_writeString hn) nofun
  | .number value unit, h, hc =>
    rw [IsShaped] at h
    obtain ⟨hx, hb⟩ := hc.numbers value (by simp [numbers])
    have hu : ∀ u ∈ unit, IsName u := fun u hu => ⟨h u hu, hc.texts u (by simpa [texts] using hu)⟩
    rw [toText, kinds]
    exact .of_inert (readAs_number hx hb hu hr) (numberKind_cases value unit).1
  | .ident name, h, hc =>
    have hn : IsName name := ⟨h, hc.texts name (by simp [texts])⟩
    rw [toText, kinds, String.toList_ofList]
    exact .ident hn hr
  | .color c, _, _ =>
    rw [toText, kinds]
    exact .of_inert (Lexeme.readAs_color c hr) rfl
  | .url address, _, hc =>
    have e : (toText (.url address)).toList =
        "url(".toList ++ (writeString address.toList ++ [')']) := by simp [toText]
    rw [e, kinds]
    exact .quotedUrl (hc.texts address (by simp [texts])) rest
  | .call name arguments, h, hc =>
    rw [IsShaped] at h
    obtain ⟨hn, -, hu, ha⟩ := h
    obtain ⟨hz, hargs⟩ := hc.arguments
    have e : (toText (.call name arguments)).toList =
        (writeIdent name.toList ++ ['(']) ++
          ((joined Separator.comma.toText arguments).toList ++ Bracket.paren.closer.toList) := by
      simp [toText, Separator.toText, Bracket.closer]
    rw [e, kinds]
    have inner : Lexes (joined Separator.comma.toText arguments).toList
        (joinedKinds .comma arguments) (Bracket.paren.closer.toList ++ rest) :=
      lexes_joined true _ .comma arguments ha hargs.items
        (by simp [Bracket.closer, Delimited, delimiters])
    exact .block (readAs_call ⟨hn, hz⟩ hu _) rfl
      (fun _ p hl => quotedUrl?_call hu ha hargs rest hl p) inner
  | .named name value, h, hc =>
    rw [IsShaped] at h
    obtain ⟨-, hn, -, hv⟩ := h
    have e : (toText (.named name value)).toList =
        writeIdent name.toList ++ (['='] ++ (toText value).toList) := by simp [toText]
    rw [e, kinds]
    show Lexes _ ([.ident name] ++ ([.comparison .equals] ++ value.kinds)) rest
    have equals : Lexes ['='] [.comparison .equals] ((toText value).toList ++ rest) :=
      .of_inert (Lexeme.readAs_equals _) rfl
    apply Lexes.append
    · exact .ident ⟨hn, hc.named.1⟩ (by simp [Delimited, delimiters])
    · exact equals.append (lexes_toText false value hv hc.named.2 hr)
  | .list separator items, h, hc =>
    rw [IsShaped] at h
    rw [toText, kinds]
    exact lexes_joined named _ separator items h.2 hc.items hr

theorem lexes_joined (named : Bool) (strength : Nat) (separator : Separator) (items : List Value)
    (h : ShapedItems named strength items) (hc : ∀ v ∈ items, v.IsClean) {rest : List Char}
    (hr : Delimited rest) :
    Lexes (joined separator.toText items).toList (joinedKinds separator items) rest := by
  match items, h, hc with
  | [], _, _ => exact .nil rest
  | v :: items, h, hc =>
    rw [ShapedItems] at h
    have hv := hc v List.mem_cons_self
    have hi : ∀ w ∈ items, w.IsClean := fun w hw => hc w (List.mem_cons_of_mem v hw)
    rw [joined, joinedKinds, String.toList_append]
    exact .append (lexes_toText named v h.1 hv (delimited_joinedTail separator items hr))
      (lexes_joinedTail named strength separator items h.2.2 hi hr)

theorem lexes_joinedTail (named : Bool) (strength : Nat) (separator : Separator)
    (items : List Value) (h : ShapedItems named strength items) (hc : ∀ v ∈ items, v.IsClean)
    {rest : List Char} (hr : Delimited rest) :
    Lexes (joinedTail separator.toText items).toList (tailKinds separator items) rest := by
  match items, h, hc with
  | [], _, _ => exact .nil rest
  | v :: items, h, hc =>
    rw [ShapedItems] at h
    have hv := hc v List.mem_cons_self
    have hi : ∀ w ∈ items, w.IsClean := fun w hw => hc w (List.mem_cons_of_mem v hw)
    rw [joinedTail, tailKinds, String.toList_append, String.toList_append]
    apply Lexes.append
    · apply Lexes.append
      · exact lexes_separator separator ((startsValue_toText named v h.1).append _)
      · exact lexes_toText named v h.1 hv (delimited_joinedTail separator items hr)
    · exact lexes_joinedTail named strength separator items h.2.2 hi hr

end

end Stylesheet
