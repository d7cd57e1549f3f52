import Stylesheet.Proofs.Written.Plain

/-!
# The tokens of a written selector

The parts of a plain selector are written one behind the other, and each ends where the next one
begins (`EndsPart`). `Selector.kinds` lists the tokens that the selector is written as, in parallel to
`Selector.toText`.
-/

namespace Stylesheet

namespace Lexes

open Lexeme

theorem colon (rest : List Char) : Lexes [':'] [.colon] rest :=
  .of_inert (readAs_mark rfl) rfl

/-- A chunk behind a function and its parenthesis. -/
theorem function {s : String} {inner rest : List Char} {ks : List TokenKind}
    (h : isPlainName s = true) (hu : sameWord s "url" = false)
    (hi : Lexes inner ks (')' :: rest)) :
    Lexes ((s.toList ++ ['(']) ++ (inner ++ [')'])) (.function s :: (ks ++ [.closing .paren])) rest := by
  refine .block (b := .paren) (readAs_plainFunction h hu _) rfl (fun l p hl => ?_) hi
  rw [Lexeme.quotedUrl?, hl]
  dsimp only
  rw [hu, if_neg (by simp)]

/-- A chunk between square brackets. -/
theorem square {inner rest : List Char} {ks : List TokenKind} (hi : Lexes inner ks (']' :: rest)) :
    Lexes (['['] ++ (inner ++ [']'])) (.opening .square :: (ks ++ [.closing .square])) rest :=
  .block (b := .square) (readAs_mark rfl) rfl (fun _ _ hl => quotedUrl?_opening hl _) hi

end Lexes

/-- The characters that may follow a part of a selector. -/
def partEnds : List Char := [' ', ',', '.', '#', ':', '[']

/-- A text in front of which a part of a selector ends. -/
def EndsPart (rest : List Char) : Prop := ∃ c cs, rest = c :: cs ∧ c ∈ partEnds

theorem EndsPart.cons {c : Char} (h : c ∈ partEnds) (rest : List Char) : EndsPart (c :: rest) :=
  ⟨c, rest, rfl, h⟩

theorem isNameEnd_of_mem {c : Char} (h : c ∈ partEnds) : isNameEnd c = true ∧ c ≠ '=' := by
  simp only [partEnds, List.mem_cons, List.not_mem_nil, or_false] at h
  rcases h with rfl | rfl | rfl | rfl | rfl | rfl <;> decide

theorem EndsPart.endsName {rest : List Char} (h : EndsPart rest) : EndsName rest := by
  obtain ⟨c, cs, rfl, hc⟩ := h
  exact .cons (isNameEnd_of_mem hc).1 cs

theorem EndsPart.head?_ne {rest : List Char} (h : EndsPart rest) : rest.head? ≠ some '=' := by
  obtain ⟨c, cs, rfl, hc⟩ := h
  simpa using (isNameEnd_of_mem hc).2

/-! ## Conditions -/

namespace Condition

/-- The tokens of a pseudo-class behind its colons. The argument is nothing or a name. -/
def nameKinds (name : String) : Option String → List TokenKind
  | none => [.ident name]
  | some a => .function name :: ((if a = "" then [] else [.ident a]) ++ [.closing .paren])

def matcherKinds : Option (Comparison × String) → List TokenKind
  | none => []
  | some (op, value) => [.comparison op, .string value]

/-- The tokens that a condition is written as. -/
def kinds : Condition → List TokenKind
  | .hasClass name => [.dot, .ident name]
  | .hasId name => [.hash name true]
  | .pseudo name argument element =>
    (if element then [.colon, .colon] else [.colon]) ++ nameKinds name argument
  | .attribute name matcher =>
    .opening .square :: ((.ident name :: matcherKinds matcher) ++ [.closing .square])

/-- A condition begins with a mark. -/
theorem exists_mark (c : Condition) :
    ∃ d ds, c.toText.toList = d :: ds ∧ d ∈ partEnds ∧ isBlank d = false := by
  match c with
  | .hasClass name => exact ⟨'.', _, by simp [toText]; rfl, by decide, rfl⟩
  | .hasId name => exact ⟨'#', _, by simp [toText]; rfl, by decide, rfl⟩
  | .pseudo name argument element =>
    cases element <;> exact ⟨':', _, by simp [toText]; rfl, by decide, rfl⟩
  | .attribute name none => exact ⟨'[', _, by simp [toText]; rfl, by decide, rfl⟩
  | .attribute name (some (op, value)) => exact ⟨'[', _, by simp [toText]; rfl, by decide, rfl⟩

theorem endsPart_toText (c : Condition) (rest : List Char) : EndsPart (c.toText.toList ++ rest) := by
  obtain ⟨d, ds, e, hd, -⟩ := c.exists_mark
  exact ⟨d, ds ++ rest, by rw [e]; rfl, hd⟩

/-- The name of a pseudo-class with its argument. -/
theorem lexes_name {name : String} {argument : Option String} {element : Bool}
    (h : isPlain (.pseudo name argument element) = true)
    (hs : IsShaped (.pseudo name argument element)) {rest : List Char} (hr : EndsPart rest) :
    Lexes (name.toList ++ (argument.elim [] fun a => '(' :: (a.toList ++ [')'])))
      (nameKinds name argument) rest := by
  simp only [isPlain, Bool.and_eq_true] at h
  cases argument with
  | none =>
    rw [Option.elim_none, List.append_nil]
    exact .plain h.1 hr.endsName
  | some a =>
    have ha : a = "" ∨ isPlainName a = true := by simpa using h.2
    -- a plain argument has no quote, so the function is no address
    have hu : sameWord name "url" = false := by
      rw [Bool.eq_false_iff]
      intro hname
      rcases ha with rfl | ha
      · simpa using hs hname
      · rcases hs hname with hq | hq <;> exact absurd (isPlainChar_of_mem ha _ hq) (by decide)
    have e : name.toList ++ (some a).elim [] (fun a => '(' :: (a.toList ++ [')'])) =
        (name.toList ++ ['(']) ++ (a.toList ++ [')']) := by simp
    rw [e, nameKinds]
    refine .function h.1 hu ?_
    split
    · rename_i he
      rw [he]
      exact .nil _
    · rename_i hne
      exact .plain (ha.resolve_left hne) (.cons (by decide) rest)

theorem lexes_attribute {name : String} {matcher : Option (Comparison × String)}
    (h : isPlain (.attribute name matcher) = true) (rest : List Char) :
    Lexes (toText (.attribute name matcher)).toList (kinds (.attribute name matcher)) rest := by
  simp only [isPlain, Bool.and_eq_true] at h
  cases matcher with
  | none =>
    have e : (toText (.attribute name none)).toList = ['['] ++ (name.toList ++ [']']) := by
      simp [toText]
    rw [e]
    exact .square (.plain h.1 (.cons (by decide) rest))
  | some m =>
    obtain ⟨op, value⟩ := m
    have hv : isBareText value = true := by simpa using h.2
    have e : (toText (.attribute name (some (op, value)))).toList = ['['] ++
        ((name.toList ++ (op.toText.toList ++ ('"' :: (value.toList ++ ['"'])))) ++ [']']) := by
      simp [toText]
    have ends (rest : List Char) : EndsName (op.toText.toList ++ rest) := by
      cases op <;> exact .cons (by decide) _
    have matcher : Lexes (op.toText.toList ++ ('"' :: (value.toList ++ ['"'])))
        ([.comparison op] ++ [.string value]) (']' :: rest) :=
      .append (.of_inert (Lexeme.readAs_comparison op _) rfl) (.bareString hv _)
    have hname : Lexes name.toList [.ident name]
        (op.toText.toList ++ ('"' :: (value.toList ++ ['"'])) ++ ']' :: rest) :=
      .plain h.1 (by rw [List.append_assoc]; exact ends _)
    rw [e]
    exact .square (hname.append matcher)

theorem lexes_toText {c : Condition} (h : c.isPlain = true) (hs : c.IsShaped) {rest : List Char}
    (hr : EndsPart rest) : Lexes c.toText.toList c.kinds rest := by
  match c, h, hs with
  | .hasClass name, h, _ =>
    have hn : isPlainName name = true := h
    have dot : Lexes ['.'] [.dot] (name.toList ++ rest) := .of_inert (Lexeme.readAs_dot hn) rfl
    rw [toText, String.toList_append]
    exact dot.append (.plain hn hr.endsName)
  | .hasId name, h, _ =>
    rw [toText, String.toList_append]
    exact .of_inert (Lexeme.readAs_hash h hr.endsName) rfl
  | .pseudo name argument element, h, hs =>
    have hname := lexes_name h hs hr
    generalize ht : name.toList ++ (argument.elim [] fun a => '(' :: (a.toList ++ [')'])) = text
      at hname
    have e : (toText (.pseudo name argument element)).toList =
        (if element then [':'] ++ [':'] else [':']) ++ text := by
      rw [← ht]
      cases element <;> cases argument <;> simp [toText]
    rw [e, kinds]
    cases element with
    | true => exact ((Lexes.colon _).append (.colon _)).append hname
    | false => exact (Lexes.colon _).append hname
  | .attribute name matcher, h, _ => exact lexes_attribute h rest

end Condition

/-! ## Compounds -/

namespace Compound

def prefixKinds : Option String → List TokenKind
  | none => []
  | some p => if p = "*" then [.asterisk, .bar] else if p = "" then [.bar] else [.ident p, .bar]

def elementKinds : Option ElementName → List TokenKind
  | none => []
  | some .any => [.asterisk]
  | some (.type name) => [.ident name]

/-- The tokens that a compound is written as. -/
def kinds (c : Compound) : List TokenKind :=
  prefixKinds c.nsPrefix ++ (elementKinds c.element ++ c.conditions.flatMap Condition.kinds)

def prefixText : Option String → List Char
  | none => []
  | some p => p.toList ++ ['|']

def elementText : Option ElementName → List Char
  | none => []
  | some .any => ['*']
  | some (.type name) => name.toList

theorem toList_toText (c : Compound) : c.toText.toList =
    prefixText c.nsPrefix ++ (elementText c.element ++ c.conditions.flatMap fun k => k.toText.toList) := by
  obtain ⟨p, _, e, ks⟩ := c
  have hks : (String.join (ks.map Condition.toText)).toList =
      ks.flatMap fun k => k.toText.toList := by
    rw [String.toList_join, List.flatMap_map]
  cases p <;> rcases e with _ | _ | _ <;> simp [toText, prefixText, elementText, hks]

theorem lexes_element {e : Option ElementName} (h : ∀ name, e = some (.type name) →
    isPlainName name = true) {rest : List Char} (hr : EndsPart rest) :
    Lexes (elementText e) (elementKinds e) rest := by
  match e, h with
  | none, _ => exact .nil rest
  | some .any, _ => exact .of_inert (Lexeme.readAs_asterisk hr.head?_ne) rfl
  | some (.type name), h => exact .plain (h name rfl) hr.endsName

/-- An element does not go on with a bar in front of it. -/
theorem elementText_head? {e : Option ElementName} (hs : e.isSome = true)
    (h : ∀ name, e = some (.type name) → isPlainName name = true) (rest : List Char) :
    (elementText e ++ rest).head? ≠ some '=' := by
  match e, hs, h with
  | some .any, _, _ => simp [elementText]
  | some (.type name), _, h =>
    obtain ⟨c, cs, e, hc, -⟩ := exists_of_isPlainName (h name rfl)
    rw [elementText, e]
    intro he
    cases he
    contradiction

theorem lexes_prefixText {p : Option String} (h : p.all isPlainPrefix = true) {rest : List Char}
    (hr : p.isSome = true → rest.head? ≠ some '=') : Lexes (prefixText p) (prefixKinds p) rest := by
  match p, h, hr with
  | none, _, _ => exact .nil rest
  | some p, h, hr =>
    have bar : Lexes ['|'] [.bar] rest := .of_inert (Lexeme.readAs_bar (hr rfl)) rfl
    rw [prefixText, prefixKinds]
    split
    · rename_i e
      have any : Lexes ['*'] [.asterisk] (['|'] ++ rest) :=
        .of_inert (Lexeme.readAs_asterisk (by simp)) rfl
      rw [e]
      exact any.append bar
    · rename_i hany
      split
      · rename_i e
        rw [e]
        exact bar
      · rename_i hnone
        have hp : isPlainName p = true := by
          simpa [isPlainPrefix, hany, hnone] using h
        exact .append (.plain hp (.cons (by decide) rest)) bar

theorem lexes_toText {c : Compound} (h : c.isPlain = true) (hs : c.IsShaped) {rest : List Char}
    (hr : EndsPart rest) : Lexes c.toText.toList c.kinds rest := by
  simp only [isPlain, Bool.and_eq_true] at h
  obtain ⟨⟨hp, htype⟩, hconditions⟩ := h
  have hname : ∀ name, c.element = some (.type name) → isPlainName name = true := by
    intro name e
    simpa [typeName?, e] using htype
  obtain ⟨hends, conditions⟩ := Lexes.flatMap _ _ _ c.conditions
    (fun k hk _ hr => Condition.lexes_toText (List.all_eq_true.1 hconditions k hk)
      (hs.conditions k hk) hr) (fun k _ => k.endsPart_toText) rest hr
  have element := (lexes_element hname hends).append conditions
  rw [toList_toText, kinds]
  refine .append (lexes_prefixText hp fun hsome => ?_) element
  rw [List.append_assoc]
  exact elementText_head? (hs.element hsome) hname _

/-- A compound does not begin with a blank. -/
theorem startsSolid {c : Compound} (h : c.isPlain = true) (hs : c.IsShaped) :
    StartsSolid c.toText.toList := by
  simp only [isPlain, Bool.and_eq_true] at h
  obtain ⟨⟨hbound, htype⟩, -⟩ := h
  rw [toList_toText]
  cases hp : c.nsPrefix with
  | some p =>
    rw [hp] at hbound
    have hplain : isPlainPrefix p = true := hbound
    simp only [isPlainPrefix, Bool.or_eq_true, beq_iff_eq] at hplain
    rw [prefixText, List.append_assoc]
    rcases hplain with (rfl | rfl) | hplain
    · exact .cons rfl _
    · exact .cons rfl _
    · exact (StartsSolid.plain hplain).append _
  | none =>
    rw [prefixText, List.nil_append]
    cases he : c.element with
    | some e =>
      cases e with
      | any => exact .cons rfl _
      | type name => exact (StartsSolid.plain (by simpa [typeName?, he] using htype)).append _
    | none =>
      obtain ⟨k, ks, e⟩ := List.exists_cons_of_ne_nil (hs.filled he)
      obtain ⟨d, ds, e', -, hd⟩ := k.exists_mark
      rw [elementText, List.nil_append, e, List.flatMap_cons, e']
      exact .cons hd _

end Compound

/-! ## Selectors -/

namespace Combinator

/-- The tokens that a combinator is written as. -/
def kinds : Combinator → List TokenKind
  | .descendant => [.whitespace]
  | .child => [.whitespace, .greater, .whitespace]
  | .adjacent => [.whitespace, .plus, .whitespace]
  | .general => [.whitespace, .tilde, .whitespace]

theorem lexes_toText (k : Combinator) {rest : List Char} (h : StartsSolid rest) :
    Lexes k.toText.toList k.kinds rest := by
  have mark {c : Char} {m : TokenKind} (hc : isBlank c = false)
      (hr : Lexeme.ReadAs [c] (.token m) ([' '] ++ rest)) (hm : m.isInert = true) :
      Lexes ([' '] ++ ([c] ++ [' '])) ([.whitespace] ++ ([m] ++ [.whitespace])) rest :=
    (Lexes.gap (.cons hc _)).append ((Lexes.of_inert hr hm).append (.gap h))
  cases k with
  | descendant => exact .gap h
  | child => exact mark rfl (Lexeme.readAs_mark rfl) rfl
  | adjacent => exact mark rfl (Lexeme.readAs_mark rfl) rfl
  | general => exact mark rfl (Lexeme.readAs_mark rfl) rfl

theorem endsPart_toText (k : Combinator) (rest : List Char) :
    EndsPart (k.toText.toList ++ rest) := by
  cases k <;> exact ⟨' ', _, rfl, by decide⟩

end Combinator

namespace Selector

/-- The compounds behind the first one, each with the combinator in front of it. -/
def links (s : Selector) : List (Combinator × Compound) := s.combinators.zip s.compounds.tail

/-- The tokens of a compound with the combinator in front of it. -/
def linkKinds (p : Combinator × Compound) : List TokenKind := p.1.kinds ++ p.2.kinds

/-- The tokens that a selector is written as. -/
def kinds (s : Selector) : List TokenKind :=
  (s.compounds.head?.map Compound.kinds).getD [] ++ s.links.flatMap linkKinds

theorem tailText_zip (ks : List Combinator) (cs : List Compound) (h : cs.length = ks.length) :
    (tailText ks cs).toList =
      (ks.zip cs).flatMap fun p => p.1.toText.toList ++ p.2.toText.toList := by
  induction cs generalizing ks with
  | nil => cases ks <;> rfl
  | cons c cs ih =>
    cases ks with
    | nil => contradiction
    | cons k ks =>
      rw [tailText, List.zip_cons_cons, List.flatMap_cons, ← ih ks (Nat.succ.inj h),
        String.toList_append, String.toList_append]

/-- A selector has a first compound; the others stand behind their combinators. -/
theorem exists_first {s : Selector} (hs : s.IsShaped) : ∃ c,
    s.compounds = c :: s.links.map Prod.snd ∧ s.combinators = s.links.map Prod.fst ∧
    s.toText.toList =
      c.toText.toList ++ s.links.flatMap fun p => p.1.toText.toList ++ p.2.toText.toList := by
  obtain ⟨compounds, combinators, span⟩ := s
  have hl := hs.joined
  match compounds, hl with
  | c :: cs, hl =>
    have hl : cs.length = combinators.length := Nat.succ.inj hl
    refine ⟨c, ?_, ?_, ?_⟩
    · exact congrArg (c :: ·) (List.map_snd_zip (Nat.le_of_eq hl)).symm
    · exact (List.map_fst_zip (Nat.le_of_eq hl.symm)).symm
    · rw [toText, String.toList_append, tailText_zip combinators cs hl]
      rfl

theorem lexes_toText {s : Selector} (h : s.isPlain = true) (hs : s.IsShaped) {rest : List Char}
    (hr : EndsPart rest) :
    StartsSolid s.toText.toList ∧ Lexes s.toText.toList s.kinds rest := by
  obtain ⟨c, hc, -, e⟩ := exists_first hs
  have hmem : ∀ p ∈ s.links, p.2 ∈ s.compounds := fun p hp => by
    rw [hc]
    exact List.mem_cons_of_mem c (List.mem_map_of_mem hp)
  have hplain : ∀ d ∈ s.compounds, d.isPlain = true := List.all_eq_true.1 h
  have hfirst : c ∈ s.compounds := hc ▸ List.mem_cons_self
  obtain ⟨hends, links⟩ := Lexes.flatMap _ linkKinds _ s.links
    (fun p hp _ hr => Lexes.append (p.1.lexes_toText
        ((Compound.startsSolid (hplain _ (hmem p hp)) (hs.compounds _ (hmem p hp))).append _))
      (Compound.lexes_toText (hplain _ (hmem p hp)) (hs.compounds _ (hmem p hp)) hr))
    (fun p _ rest => by rw [List.append_assoc]; exact p.1.endsPart_toText _) rest hr
  have first := Compound.lexes_toText (hplain c hfirst) (hs.compounds c hfirst) hends
  rw [e, kinds, hc]
  exact ⟨(Compound.startsSolid (hplain c hfirst) (hs.compounds c hfirst)).append _,
    first.append links⟩

end Selector

/-! ## Lists with separators -/

theorem String.toList_intercalate_cons (separator s : String) (l : List String) :
    (separator.intercalate (s :: l)).toList =
      s.toList ++ l.flatMap fun t => separator.toList ++ t.toList := by
  induction l generalizing s with
  | nil => simp
  | cons t l ih =>
    rw [String.intercalate_cons_cons, String.toList_append, String.toList_append, ih,
      List.flatMap_cons, List.append_assoc, List.append_assoc]

/-- The tokens of items with a separator between any two. -/
def separatedKinds (separator : List TokenKind) (items : List (List TokenKind)) : List TokenKind :=
  items.head?.getD [] ++ items.tail.flatMap fun ks => separator ++ ks

/-- Items with a separator between any two, where each may be followed by the separator. -/
theorem lexes_intercalate {α : Type} (separator : String) (ks : List TokenKind)
    {text : α → String} {kinds : α → List TokenKind}
    (hs : ∀ rest, StartsSolid rest → Lexes separator.toList ks rest)
    (hf : ∀ rest, EndsPart (separator.toList ++ rest)) {xs : List α} (hx : xs ≠ [])
    (h : ∀ x ∈ xs, ∀ rest, EndsPart rest →
      StartsSolid (text x).toList ∧ Lexes (text x).toList (kinds x) rest)
    {rest : List Char} (hr : EndsPart rest) :
    StartsSolid (String.intercalate separator (xs.map text)).toList ∧
      Lexes (String.intercalate separator (xs.map text)).toList
        (separatedKinds ks (xs.map kinds)) rest := by
  obtain ⟨x, xs, rfl⟩ := List.exists_cons_of_ne_nil hx
  obtain ⟨hx, hxs⟩ := List.forall_mem_cons.1 h
  obtain ⟨hends, more⟩ := Lexes.flatMap (fun y => separator.toList ++ (text y).toList)
    (fun y => ks ++ kinds y) _ xs
    (fun y hy rest hr => by
      obtain ⟨hsolid, hy⟩ := hxs y hy rest hr
      exact (hs _ (hsolid.append rest)).append hy)
    (fun y _ rest => by rw [List.append_assoc]; exact hf _) rest hr
  obtain ⟨hsolid, first⟩ := hx _ hends
  rw [List.map_cons, String.toList_intercalate_cons, List.flatMap_map, separatedKinds, List.map_cons,
    List.head?_cons, List.tail_cons, List.flatMap_map]
  exact ⟨hsolid.append _, first.append more⟩

/-- The tokens between two items that a comma parts. -/
def commaKinds : List TokenKind := [.comma, .whitespace]

theorem lexes_commas {α : Type} (text : α → String) {kinds : α → List TokenKind} {xs : List α}
    (hx : xs ≠ []) (h : ∀ x ∈ xs, ∀ rest, EndsPart rest →
      StartsSolid (text x).toList ∧ Lexes (text x).toList (kinds x) rest)
    {rest : List Char} (hr : EndsPart rest) :
    StartsSolid (String.intercalate ", " (xs.map text)).toList ∧
      Lexes (String.intercalate ", " (xs.map text)).toList
        (separatedKinds commaKinds (xs.map kinds)) rest := by
  have comma (rest : List Char) : Lexes [','] [.comma] rest :=
    .of_inert (Lexeme.readAs_comma rest) rfl
  exact lexes_intercalate ", " commaKinds (fun rest hr => (comma _).append (.gap hr))
    (fun _ => EndsPart.cons (c := ',') (by decide) _) hx h hr

end Stylesheet
