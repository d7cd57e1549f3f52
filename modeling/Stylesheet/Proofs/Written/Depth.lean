import Stylesheet.Proofs.Problem.Outcome
import Stylesheet.Proofs.Reading.Depth
import Stylesheet.Proofs.Written.Reread

/-!
# The depth of written values

A value is written with a block for each of its calls and for each of its addresses, since these are
written with quotes. So its text opens exactly as many blocks inside one another as its depth says
(`deepens_toText`), whatever its numbers and its names are. In a document an address without quotes was
no block, and then a value can be one block deeper when it is written than in the text it came out of;
this is the only way in which writing it fails to keep the nesting limit (`parseText_nesting`).
-/

namespace Stylesheet

open Lexeme Value

/-! ## Chunks of a text -/

theorem filterMap_scan_token {text rest : List Char} {k : TokenKind} (h : ReadAs text (.token k) rest)
    (p : Position) : (scan p (text ++ rest)).filterMap tokenKind? =
      k :: (scan (p.after text) rest).filterMap tokenKind? := by
  rw [scan_readAs h]
  exact List.filterMap_cons_some rfl

/-- Where `rest` follows, `chunk` opens `n` blocks inside one another, and leaves those that are open as
    they are. -/
def Deepens (n : Nat) (chunk rest : List Char) : Prop :=
  ∀ p, ∃ ks p', Nests n ks ∧
    (scan p (chunk ++ rest)).filterMap tokenKind? = ks ++ (scan p' rest).filterMap tokenKind?

namespace Deepens

variable {m n : Nat} {a b text rest : List Char}

theorem nil (rest : List Char) : Deepens 0 [] rest := fun p => ⟨[], p, .nil, rfl⟩

theorem append (ha : Deepens m a (b ++ rest)) (hb : Deepens n b rest) :
    Deepens (max m n) (a ++ b) rest := by
  intro p
  obtain ⟨ks, q, hk, e⟩ := ha p
  obtain ⟨js, q', hj, e'⟩ := hb q
  exact ⟨ks ++ js, q', hk.append hj, by rw [List.append_assoc, e, e', List.append_assoc]⟩

/-- Behind a chunk without blocks. -/
theorem behind (ha : Deepens 0 a (b ++ rest)) (hb : Deepens n b rest) : Deepens n (a ++ b) rest := by
  rw [← Nat.zero_max n]
  exact ha.append hb

/-- In front of a chunk without blocks. -/
theorem before (ha : Deepens n a (b ++ rest)) (hb : Deepens 0 b rest) : Deepens n (a ++ b) rest := by
  rw [← Nat.max_zero n]
  exact ha.append hb

/-- A token that opens and closes nothing. -/
theorem token {k : TokenKind} (h : ReadAs text (.token k) rest) (ho : k.opens? = none)
    (hc : k.isClosing = false) : Deepens 0 text rest :=
  fun p => ⟨[k], p.after text, .one ho hc, filterMap_scan_token h p⟩

/-- A character that is no token. -/
theorem stray {c : Char} (h : ReadAs text (.stray c) rest) : Deepens 0 text rest := by
  refine fun p => ⟨[], p.after text, .nil, ?_⟩
  rw [scan_readAs h]
  exact List.filterMap_cons_none rfl

/-- A chunk between the brackets of a block. -/
theorem block {opener inner : List Char} {k : TokenKind} {b : Bracket}
    (ho : ReadAs opener (.token k) (inner ++ (b.closer.toList ++ rest))) (hb : k.opens? = some b)
    (hi : Deepens n inner (b.closer.toList ++ rest)) :
    Deepens (n + 1) (opener ++ (inner ++ b.closer.toList)) rest := by
  intro p
  have hc : ReadAs b.closer.toList (.token (.closing b)) rest := by
    cases b <;> exact readAs_mark rfl
  obtain ⟨ks, q, hk, e⟩ := hi (p.after opener)
  refine ⟨k :: (ks ++ [.closing b]), q.after b.closer.toList, hk.block hb, ?_⟩
  rw [List.append_assoc, List.append_assoc, filterMap_scan_token ho, e, filterMap_scan_token hc,
    List.cons_append, List.append_assoc, List.singleton_append]

theorem blank {c : Char} (h : isBlank c = false) (rest : List Char) : Deepens 0 [' '] (c :: rest) :=
  .token (readAs_blank h) rfl rfl

theorem ident {s : String} (h : IsName s) (hr : Delimited rest) :
    Deepens 0 (writeIdent s.toList) rest :=
  .token (readAs_ident h hr) rfl rfl

theorem nestingDepth_eq (h : Deepens n text []) : nestingDepth text = n := by
  obtain ⟨ks, p, hk, e⟩ := h .start
  rw [List.append_nil, scan, List.filterMap_nil, List.append_nil] at e
  rw [nestingDepth, e, (hk []).2]
  exact Nat.zero_add n

end Deepens

/-! ## Numbers -/

/-- The text of a number that is not finite is one name with what follows. -/
theorem readAs_notFinite {x : Single} (hx : ¬ x.IsFinite) {text rest letters : List Char}
    (hn : name (text ++ rest) = (letters, rest)) (hp : rest.head? ≠ some '(') :
    ReadAs (x.toText.toList ++ text) (.token (.ident (String.ofList (x.toText.toList ++ letters)))) rest := by
  have hw := toText_notFinite hx
  generalize x.toText = word at hw
  have hword : writeIdent word.toList = word.toList ∧ nul ∉ word.toList ∧ word.toList ≠ [] := by
    rcases hw with rfl | rfl | rfl <;> decide
  obtain ⟨hwrite, hnul, hne⟩ := hword
  have hm : ['-', '-', '>'].isPrefixOf (word.toList ++ (text ++ rest)) = false := by
    rcases hw with rfl | rfl | rfl <;> rfl
  have hb := beginsName_writeIdent hne (text ++ rest)
  have hname := name_writeIdent hnul (text ++ rest)
  rw [hwrite] at hb hname
  rw [hn] at hname
  have hlike : identLike (word.toList ++ (text ++ rest)) =
      (.token (.ident (String.ofList (word.toList ++ letters))), rest) := by
    simp only [identLike, hname]
    split
    · exact absurd rfl hp
    · rfl
  obtain ⟨c, cs, e⟩ := List.exists_cons_of_ne_nil hne
  rw [e, List.cons_append] at hb hm hlike
  refine ⟨c, cs ++ text, by rw [e, List.cons_append], ?_⟩
  rw [List.append_assoc, next_of_beginsName hb hm, hlike, e, List.cons_append]

theorem readAs_percent (rest : List Char) : ReadAs ['%'] (.stray '%') rest := by
  apply readAs_mark
  rw [next_punctuation (by decide) (by rfl) (by decide) (by rfl)]
  rfl

/-- A number opens no block, even one that is not finite and is written as a name. -/
theorem deepens_number (x : Single) {unit : Option String} (hu : ∀ u ∈ unit, IsName u)
    {rest : List Char} (hr : Delimited rest) : Deepens 0 (numberText x unit).toList rest := by
  by_cases hx : x.IsFinite
  · have hinert := (numberKind_cases (x.reread unit) unit).1
    refine .token (readAs_numberText hx hu hr) ?_ ?_ <;>
      cases hk : numberKind (x.reread unit) unit <;> rw [hk] at hinert <;> first | rfl | contradiction
  · have hparen : rest.head? ≠ some '(' := hr.head?_ne (by decide)
    have hname : name ([] ++ rest) = ([], rest) := hr.name
    match unit, hu with
    | none, _ =>
      rw [numberText, ← List.append_nil x.toText.toList]
      exact .token (readAs_notFinite hx hname hparen) rfl rfl
    | some u, hu =>
      rw [numberText, String.toList_append]
      by_cases hp : u = "%"
      · have hstop : name ([] ++ '%' :: rest) = ([], '%' :: rest) := name_stop (by decide) (by decide) rest
        have hword := readAs_notFinite hx hstop (by simp)
        rw [List.append_nil] at hword
        rw [if_pos hp]
        exact .behind (.token hword rfl rfl) (.stray (readAs_percent rest))
      · have hunit := name_writeUnit (hu u rfl).noNul rest
        rw [hr.name, List.append_nil] at hunit
        rw [if_neg hp, String.toList_ofList]
        exact .token (readAs_notFinite hx hunit hparen) rfl rfl

/-! ## Values -/

theorem deepens_separator (s : Separator) {rest : List Char} (h : StartsValue rest) :
    Deepens 0 s.toText.toList rest := by
  obtain ⟨c, cs, rfl, hb, hs⟩ := h
  cases s with
  | comma =>
    have comma : Deepens 0 [','] ([' '] ++ c :: cs) := .token (readAs_comma _) rfl rfl
    exact comma.behind (.blank hb cs)
  | space => exact .blank hb cs
  | slash => exact .token (readAs_slash (by simpa using hs)) rfl rfl

mutual

/-- A value opens as many blocks inside one another as its depth says, with a block for each address. -/
theorem deepens_toText (named : Bool) (v : Value) (h : v.IsShaped named)
    (hc : ∀ s ∈ v.texts, nul ∉ s.toList) {rest : List Char} (hr : Delimited rest) :
    Deepens (v.depth 1) v.toText.toList rest := by
  match v, h, hc with
  | .string content, _, hc =>
    rw [toText, String.toList_ofList]
    exact .token (readAs_string (hc content (by simp [texts])) rest) rfl rfl
  | .number value unit, h, hc =>
    rw [IsShaped] at h
    exact deepens_number value (fun u hu => ⟨h u hu, hc u (by simpa [texts] using hu)⟩) hr
  | .ident name, h, hc =>
    rw [toText, String.toList_ofList]
    exact .ident ⟨h, hc name (by simp [texts])⟩ hr
  | .color c, _, _ =>
    rw [toText]
    exact .token (readAs_color c hr) rfl rfl
  | .url address, _, hc =>
    have e : (toText (.url address)).toList =
        "url(".toList ++ (writeString address.toList ++ Bracket.paren.closer.toList) := by
      simp [toText, Bracket.closer]
    have opener : ReadAs "url(".toList (.token (.function "url"))
        (writeString address.toList ++ (Bracket.paren.closer.toList ++ rest)) := by
      rw [writeString, List.cons_append]
      exact readAs_url _
    have inner : Deepens 0 (writeString address.toList) (Bracket.paren.closer.toList ++ rest) :=
      .token (readAs_string (hc address (by simp [texts])) _) rfl rfl
    rw [e]
    exact .block opener rfl inner
  | .call name arguments, h, hc =>
    rw [IsShaped] at h
    obtain ⟨hn, -, hu, ha⟩ := h
    have e : (toText (.call name arguments)).toList = (writeIdent name.toList ++ ['(']) ++
        ((joined Separator.comma.toText arguments).toList ++ Bracket.paren.closer.toList) := by
      simp [toText, Separator.toText, Bracket.closer]
    have inner : Deepens (depthAmong 1 arguments) (joined Separator.comma.toText arguments).toList
        (Bracket.paren.closer.toList ++ rest) :=
      deepens_joined true _ .comma arguments ha (fun s hs => hc s (List.mem_cons_of_mem name hs))
        (by simp [Bracket.closer, Delimited, delimiters])
    rw [e]
    exact .block (readAs_call ⟨hn, hc name List.mem_cons_self⟩ hu _) rfl inner
  | .named name value, h, hc =>
    rw [IsShaped] at h
    obtain ⟨-, hn, -, hv⟩ := h
    have e : (toText (.named name value)).toList =
        writeIdent name.toList ++ (['='] ++ (toText value).toList) := by simp [toText]
    have equals : Deepens 0 ['='] ((toText value).toList ++ rest) := .token (readAs_equals _) rfl rfl
    have behind : Deepens (value.depth 1) (toText value).toList rest :=
      deepens_toText false value hv (fun s hs => hc s (List.mem_cons_of_mem name hs)) hr
    rw [e]
    refine .behind (.ident ⟨hn, hc name List.mem_cons_self⟩ ?_) (equals.behind behind)
    simp [Delimited, delimiters]
  | .list separator items, h, hc =>
    rw [IsShaped] at h
    rw [toText]
    exact deepens_joined named _ separator items h.2 hc hr

theorem deepens_joined (named : Bool) (strength : Nat) (separator : Separator) (items : List Value)
    (h : ShapedItems named strength items) (hc : ∀ s ∈ textsAll items, nul ∉ s.toList)
    {rest : List Char} (hr : Delimited rest) :
    Deepens (depthAmong 1 items) (joined separator.toText items).toList rest := by
  match items, h, hc with
  | [], _, _ => exact .nil rest
  | v :: items, h, hc =>
    rw [ShapedItems] at h
    obtain ⟨hv, hi⟩ := List.forall_mem_append.1 hc
    rw [joined, String.toList_append]
    exact .append (deepens_toText named v h.1 hv (delimited_joinedTail separator items hr))
      (deepens_joinedTail named strength separator items h.2.2 hi hr)

theorem deepens_joinedTail (named : Bool) (strength : Nat) (separator : Separator)
    (items : List Value) (h : ShapedItems named strength items)
    (hc : ∀ s ∈ textsAll items, nul ∉ s.toList) {rest : List Char} (hr : Delimited rest) :
    Deepens (depthAmong 1 items) (joinedTail separator.toText items).toList rest := by
  match items, h, hc with
  | [], _, _ => exact .nil rest
  | v :: items, h, hc =>
    rw [ShapedItems] at h
    obtain ⟨hv, hi⟩ := List.forall_mem_append.1 hc
    have separates := deepens_separator separator ((startsValue_toText named v h.1).append
      ((joinedTail separator.toText items).toList ++ rest))
    have first := deepens_toText named v h.1 hv (delimited_joinedTail separator items hr)
    rw [joinedTail, String.toList_append, String.toList_append]
    exact .append (separates.behind first)
      (deepens_joinedTail named strength separator items h.2.2 hi hr)

end

namespace Value

mutual

theorem depth_decoded (address : Nat) (v : Value) : v.decoded.depth address = v.depth address := by
  match v with
  | .string _ | .number _ _ | .ident _ | .color _ | .url _ => rfl
  | .call _ arguments => exact congrArg (· + 1) (depthAmong_decodedAll address arguments)
  | .named _ value => exact depth_decoded address value
  | .list _ items => exact depthAmong_decodedAll address items

theorem depthAmong_decodedAll (address : Nat) (items : List Value) :
    depthAmong address (decodedAll items) = depthAmong address items := by
  match items with
  | [] => rfl
  | v :: rest =>
    rw [decodedAll, depthAmong, depthAmong, depth_decoded address v, depthAmong_decodedAll address rest]

end

end Value

/-! ## Rules -/

theorem deepens_declarationText {v : Value} (hv : v.IsShaped false)
    (hc : ∀ s ∈ v.texts, nul ∉ s.toList) : Deepens (v.depth 1 + 1) (declarationText v).toList [] := by
  have hf : IsName "Foo" := ⟨by decide, by decide⟩
  have hp : IsName "p" := ⟨by decide, by decide⟩
  have e : (declarationText v).toList =
      writeIdent "Foo".toList ++ ([' '] ++ (['\x7b'] ++ (([' '] ++ (writeIdent "p".toList ++ ([':'] ++
        ([' '] ++ (v.toText.toList ++ ([';'] ++ [' '])))))) ++ Bracket.brace.closer.toList))) := by
    rw [show writeIdent "Foo".toList = "Foo".toList by decide,
      show writeIdent "p".toList = "p".toList by decide]
    simp [declarationText, Bracket.closer]
  obtain ⟨d, ds, hd, hblank, -⟩ := startsValue_toText false v hv
  -- the blank in front of the value ends where the value begins
  have front : Deepens 0 [' '] (v.toText.toList ++ ([';'] ++ [' ']) ++ (Bracket.brace.closer.toList ++ [])) := by
    rw [hd]
    exact .blank hblank _
  have value : Deepens (v.depth 1) v.toText.toList ([';'] ++ [' '] ++ (Bracket.brace.closer.toList ++ [])) :=
    deepens_toText false v hv hc (by simp [Delimited, delimiters])
  have semicolon : Deepens 0 [';'] ([' '] ++ (Bracket.brace.closer.toList ++ [])) :=
    .token (readAs_mark rfl) rfl rfl
  have content : Deepens (v.depth 1) ([' '] ++ (writeIdent "p".toList ++ ([':'] ++ ([' '] ++
      (v.toText.toList ++ ([';'] ++ [' '])))))) (Bracket.brace.closer.toList ++ []) := by
    refine .behind (.blank (by decide) _) (.behind (.ident hp ?_) (.behind ?_ (.behind front ?_)))
    · simp [Delimited, delimiters]
    · exact .token (readAs_mark rfl) rfl rfl
    · exact value.before (semicolon.behind (.blank (by decide) _))
  rw [e]
  refine .behind (.ident hf ?_) (.behind (.blank (by decide) _) (.block readAs_openingBrace rfl content))
  simp [Delimited, delimiters]

/-- A rule with a value opens the brace around it, and as many blocks in it as the value is deep. -/
theorem nestingDepth_declarationText {v : Value} (hv : v.IsShaped false) :
    nestingDepth (declarationText v).toList = v.depth 1 + 1 := by
  have htext : declarationText v.decoded = declarationText v := by
    rw [declarationText, declarationText, v.toText_decoded]
  have hclean : ∀ s ∈ v.decoded.texts, nul ∉ s.toList := by
    intro s hs
    rw [Value.texts_decoded] at hs
    obtain ⟨t, -, rfl⟩ := List.mem_map.1 hs
    exact nul_not_mem_decodedText t
  rw [← htext, (deepens_declarationText hv.decoded hclean).nestingDepth_eq, Value.depth_decoded]

/-- Where a text gives a document, the calls in the value of each declaration and the brace around it are
    no more blocks than the text has inside one another, and the limit allows these. The value is written
    with a block for each address too, so with one more at most; the limit is not kept where this one is
    too much. -/
theorem parseText_nesting {source text : String} {options : Options} {document : Document}
    (h : (parseText source text options).document = some document) {d : Declaration}
    (hd : d ∈ document.declarations) (source' : String) :
    d.value.depth 0 + 1 ≤ nestingDepth text.toList ∧
      nestingDepth text.toList ≤ options.maxNestingDepth ∧
      nestingDepth (declarationText d.value).toList = d.value.depth 1 + 1 ∧
      d.value.depth 1 ≤ d.value.depth 0 + 1 ∧
      ((∃ p ∈ (parseText source' (declarationText d.value) options).problems,
          p.kind = .nestingTooDeep) ↔ d.value.depth 1 = options.maxNestingDepth) := by
  have hshaped := (parseText_isShaped h).values d.value (Document.value_mem_values hd)
  have hwritten := nestingDepth_declarationText hshaped
  have hdeeper := d.value.depth_le 1
  cases ht : (tokenize source text.toList options).tooDeep with
  | some e =>
    rw [(parseText_tooDeep ht).1] at h
    contradiction
  | none =>
    have hlimit := tokenize_tooDeep_eq_none_iff.1 ht
    rw [(parseText_document ht).1] at h
    cases h
    have hcalls := buildDocument_depth_lt source text.toList options options d hd
    refine ⟨hcalls, hlimit, hwritten, hdeeper, ?_⟩
    rw [parseText_nestingTooDeep_iff, hwritten]
    omega

/-- Options that allow a few blocks inside one another. -/
def Options.shallow (limit : Nat) : Options := { maxNestingDepth := limit }

/-- Two calls inside one another, and two with an address in them, in a text that is as deep as three
    blocks. -/
def nestedText : String := "a\x7bp:f(g(b));q:f(g(url(x)))\x7d"

/-- An address without quotes. -/
def bareAddress : String := "a\x7bp:url(x)\x7d"

/-- How deep the values of both texts are, without and with the blocks of the addresses. -/
theorem depths_nestedText_bareAddress :
    (parseText "nested.css" nestedText (.shallow 3)).document.any (fun document =>
      document.declarations.map (fun d => (d.value.depth 0, d.value.depth 1)) ==
        [(2, 2), (2, 3)]) = true ∧
    (parseText "bare.css" bareAddress (.shallow 1)).document.any (fun document =>
      document.declarations.map (fun d => (d.value.depth 0, d.value.depth 1)) == [(0, 1)]) = true := by
  decide +kernel

/-- Of the values of `nestedText` the second one is deeper when it is written. -/
theorem parseText_nesting_nestedText :
    ∃ document, (parseText "nested.css" nestedText (.shallow 3)).document = some document ∧
      document.declarations.map (fun d => (d.value.depth 0, d.value.depth 1)) = [(2, 2), (2, 3)] ∧
      ∀ d ∈ document.declarations,
        d.value.depth 0 + 1 ≤ nestingDepth nestedText.toList ∧
        nestingDepth nestedText.toList ≤ 3 ∧
        nestingDepth (declarationText d.value).toList = d.value.depth 1 + 1 ∧
        d.value.depth 1 ≤ d.value.depth 0 + 1 ∧
        ((∃ p ∈ (parseText "written.css" (declarationText d.value) (.shallow 3)).problems,
          p.kind = .nestingTooDeep) ↔ d.value.depth 1 = 3) := by
  obtain ⟨document, h, hdepths⟩ := (Option.any_eq_true _ _).1 depths_nestedText_bareAddress.1
  exact ⟨document, h, eq_of_beq hdepths, fun d hd => parseText_nesting h hd "written.css"⟩

/-- A text with no block but its braces gives a document, and the value in it is written as a text that
    does not keep the same limit. -/
theorem not_keepsLimit_bareAddress :
    ∃ document, (parseText "bare.css" bareAddress (.shallow 1)).document = some document ∧
      ∃ d ∈ document.declarations,
        ∃ p ∈ (parseText "written.css" (declarationText d.value) (.shallow 1)).problems,
          p.kind = .nestingTooDeep := by
  obtain ⟨document, h, hdepths⟩ := (Option.any_eq_true _ _).1 depths_nestedText_bareAddress.2
  obtain ⟨d, hone, hdepth⟩ := List.map_eq_singleton_iff.1 (eq_of_beq hdepths)
  have hd : d ∈ document.declarations := hone ▸ List.mem_singleton_self d
  have hshaped := (parseText_isShaped h).values d.value (Document.value_mem_values hd)
  refine ⟨document, h, d, hd, parseText_nestingTooDeep_iff.2 ?_⟩
  rw [nestingDepth_declarationText hshaped, (Prod.mk.inj hdepth).2]
  decide

end Stylesheet
