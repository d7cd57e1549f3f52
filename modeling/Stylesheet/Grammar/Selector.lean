import Stylesheet.Grammar.Production

/-!
# Selectors

    selector list    selector (',' selector)*
    selector         compound (combinator compound)*
    compound         (namespace prefix? element name)? condition*
    condition        id | class | attribute | pseudo-class

A combinator is `>`, `+`, `~`, or the whitespace in front of a compound; two compounds do not stand
back to back.
-/

namespace Stylesheet.Grammar

open Production

def isNameOrAny (k : TokenKind) : Bool := k.isIdent || k == .asterisk

/-- The tokens that a compound may begin with. -/
def startsCompound : TokenKind → Bool
  | .ident _ | .asterisk | .bar | .hash .. | .dot | .opening .square | .colon => true
  | _ => false

/-- The tokens that a condition begins with, rightly or not. -/
def startsCondition : TokenKind → Bool
  | .hash .. | .dot | .opening .square | .colon => true
  | _ => false

def isCombinator (k : TokenKind) : Bool := k == .greater || k == .plus || k == .tilde

def isComparison : TokenKind → Bool
  | .comparison _ => true
  | _ => false

/-- A single token as a production of its own. -/
def single (kind : NodeKind) (leaf : Tree) : Tree := .node kind leaf.first [leaf]

/-- `#name`, which has to be an identifier. -/
def idSelector : Production Tree := do
  let id ← take (fun k => match k with | .hash _ isId => isId | _ => false)
    fun s => .selector (.noId ((s.head?.map (·.token.text)).getD ""))
  return single .idSelector id

/-- `.name`. -/
def classSelector : Production Tree := do
  let dot ← take (· == .dot) fun s => .selector (.unexpected s.found)
  let name ← take TokenKind.isIdent fun _ => .selector .noClassName
  return .node .classSelector dot.first [dot, name]

/-- A comparison and its value, or nothing. -/
def attributeMatcher : Production (List Tree) := do
  match ← take? isComparison with
  | none => return []
  | some comparison =>
    blank
    let value ← take (fun k => match k with | .ident _ | .string _ => true | _ => false)
      fun _ => .selector .noAttributeValue
    blank
    return [comparison, value]

/-- `[name]` or `[name comparison value]`. -/
def attributeSelector : Production Tree := do
  let bracket ← take (· == .opening .square) fun s => .selector (.unexpected s.found)
  blank
  let name ← take TokenKind.isIdent fun _ => .selector .noAttributeName
  blank
  let matcher ← attributeMatcher
  let close ← take (· == .closing .square) fun _ => .selector .noClosingBracket
  return .node .attributeSelector bracket.first (bracket :: name :: (matcher ++ [close]))

/-- The tokens up to the parenthesis that closes a functional pseudo-class, with it. Opening brackets
    of any kind count, and parentheses close them. -/
def pseudoArgument (depth : Nat) : Tokens → Outcome (List Tree)
  | [] => .rejected (Tokens.fault [] (.selector .openArgument)) []
  | t :: rest =>
    if t.kind.opens?.isSome then (pseudoArgument (depth + 1) rest).map (t.leaf :: ·)
    else if t.kind = .closing .paren then
      if depth = 0 then .accepted [t.leaf] rest
      else (pseudoArgument (depth - 1) rest).map (t.leaf :: ·)
    else (pseudoArgument depth rest).map (t.leaf :: ·)

/-- The name of a pseudo-class, with its argument if it is a function. -/
def pseudoName : Production (List Tree) := fun s =>
  match s with
  | [] => .rejected (Tokens.fault [] (.selector .noPseudoName)) []
  | t :: rest =>
    match t.kind with
    | .ident _ => .accepted [t.leaf] rest
    | .function _ => (pseudoArgument 0 rest).map (t.leaf :: ·)
    | _ => .rejected (Tokens.fault s (.selector .noPseudoName)) s

/-- `:name`, `::name` or `:name(argument)`. -/
def pseudoSelector : Production Tree := do
  let colon ← take (· == .colon) fun s => .selector (.unexpected s.found)
  let second ← take? (· == .colon)
  let name ← pseudoName
  return .node .pseudoSelector colon.first (colon :: (second.toList ++ name))

/-- The condition that the next token begins. -/
def condition : Production Tree := fun s =>
  match s.kind? with
  | some .dot => classSelector s
  | some (.opening .square) => attributeSelector s
  | some .colon => pseudoSelector s
  | _ => idSelector s

theorem pseudoArgument_advances : ∀ (s : Tokens) (depth : Nat), (pseudoArgument depth s).rest <:+ s
  | [], _ => List.suffix_refl _
  | t :: rest, depth => by
    have step (d : Nat) : (pseudoArgument d rest).rest <:+ t :: rest :=
      (pseudoArgument_advances rest d).trans (List.suffix_cons t rest)
    rw [pseudoArgument]
    split
    · rw [Outcome.rest_map]
      exact step _
    · split
      · split
        · exact List.suffix_cons t rest
        · rw [Outcome.rest_map]
          exact step _
      · rw [Outcome.rest_map]
        exact step _

theorem pseudoName_advances : Advances pseudoName := by
  intro s
  unfold pseudoName
  split
  · exact List.suffix_refl _
  · rename_i t rest
    split
    · exact List.suffix_cons t rest
    · rw [Outcome.rest_map]
      exact (pseudoArgument_advances rest 0).trans (List.suffix_cons t rest)
    · exact List.suffix_refl _

theorem attributeMatcher_advances : Advances attributeMatcher :=
  .bind (.take? _) fun
    | none => .pure _
    | some _ => .bind .blank fun _ => .bind (.take _ _) fun _ => .bind .blank fun _ => .pure _

theorem condition_advances : Advances condition := by
  intro s
  unfold condition
  split
  · exact Advances.bind (.take _ _) (fun _ => .bind (.take _ _) fun _ => .pure _) s
  · exact Advances.bind (.take _ _) (fun _ => .bind .blank fun _ => .bind (.take _ _) fun _ =>
      .bind .blank fun _ => .bind attributeMatcher_advances fun _ => .bind (.take _ _) fun _ =>
      .pure _) s
  · exact Advances.bind (.take _ _) (fun _ => .bind (.take? _) fun _ =>
      .bind pseudoName_advances fun _ => .pure _) s
  · exact Advances.bind (.take _ _) (fun _ => .pure _) s

theorem condition_consumes : Consumes condition := by
  intro s c rest h
  unfold condition at h
  split at h
  · exact Consumes.bind (.take _ _) (fun _ => .bind (.take _ _) fun _ => .pure _) s c rest h
  · exact Consumes.bind (.take _ _) (fun _ => .bind .blank fun _ => .bind (.take _ _) fun _ =>
      .bind .blank fun _ => .bind attributeMatcher_advances fun _ => .bind (.take _ _) fun _ =>
      .pure _) s c rest h
  · exact Consumes.bind (.take _ _) (fun _ => .bind (.take? _) fun _ =>
      .bind pseudoName_advances fun _ => .pure _) s c rest h
  · exact Consumes.bind (.take _ _) (fun _ => .pure _) s c rest h

/-- Conditions, as long as a token begins one. -/
def conditions : Production (List Tree) := fun s =>
  if s.startsWith startsCondition then
    match h : condition s with
    | .rejected e rest => .rejected e rest
    | .accepted c rest =>
      have := condition_consumes s c rest h
      (conditions rest).map (c :: ·)
  else .accepted [] s
termination_by s => s.length

theorem conditions_advances (s : Tokens) : (conditions s).rest <:+ s := by
  fun_induction conditions s with
  | case1 s _ e rest h =>
    have := condition_advances s
    rw [h] at this
    exact this
  | case2 s _ c rest h _ ih =>
    have := condition_advances s
    rw [h] at this
    rw [Outcome.rest_map]
    exact ih.trans this
  | case3 s => exact List.suffix_refl s

/-- `name|`, `*|` or a bare bar. -/
def namespacePrefix? : Production (Option Tree) := fun s =>
  match s with
  | t :: u :: rest =>
    if t.kind == .bar then .accepted (some (single .namespacePrefix t.leaf)) (u :: rest)
    else if isNameOrAny t.kind && u.kind == .bar then
      .accepted (some (.node .namespacePrefix t.index [t.leaf, u.leaf])) rest
    else .accepted none s
  | [t] =>
    if t.kind == .bar then .accepted (some (single .namespacePrefix t.leaf)) []
    else .accepted none s
  | [] => .accepted none s

theorem namespacePrefix?_advances : Advances namespacePrefix? := by
  intro s
  unfold namespacePrefix?
  split
  · rename_i t u rest
    split
    · exact List.suffix_cons _ _
    · split
      · exact (List.suffix_cons u rest).trans (List.suffix_cons t _)
      · exact List.suffix_refl _
  · split
    · exact List.nil_suffix
    · exact List.suffix_refl _
  · exact List.suffix_refl _

/-- The element that a compound names: with a prefix it has to. -/
def elementName? (hasPrefix : Bool) : Production (Option Tree) := do
  match ← take? isNameOrAny with
  | some name => return some (single .elementName name)
  | none => if hasPrefix then reject fun _ => .selector .noElementName else return none

theorem elementName?_advances (hasPrefix : Bool) : Advances (elementName? hasPrefix) :=
  .bind (.take? _) fun
    | some _ => .pure _
    | none => .ite (.reject _) (.pure _)

theorem namespacePrefix?_length {s rest : Tokens} {t : Tree}
    (h : namespacePrefix? s = .accepted (some t) rest) : rest.length < s.length := by
  unfold namespacePrefix? at h
  split at h
  · split at h
    · cases h
      simp
    · split at h
      · cases h
        simp only [List.length_cons]
        omega
      · cases h
  · split at h
    · cases h
      simp
    · cases h
  · cases h

theorem elementName?_length {hasPrefix : Bool} {s rest : Tokens} {t : Tree}
    (h : elementName? hasPrefix s = .accepted (some t) rest) : rest.length < s.length := by
  unfold elementName? at h
  rw [Production.bind_apply] at h
  split at h
  · rename_i a left e
    cases a with
    | some name =>
      cases h
      exact take?_length e
    | none =>
      dsimp only at h
      split at h <;> cases h
  · cases h

theorem conditions_length {s rest : Tokens} {t : Tree} {ts : List Tree}
    (h : conditions s = .accepted (t :: ts) rest) : rest.length < s.length := by
  rw [conditions] at h
  split at h
  · split at h
    · cases h
    · rename_i c left e
      have h₁ := condition_consumes s c left e
      have h₂ := (conditions_advances left).length_le
      cases hc : conditions left with
      | rejected e r =>
        rw [hc] at h
        cases h
      | accepted cs r =>
        rw [hc] at h h₂
        cases h
        exact Nat.lt_of_le_of_lt h₂ h₁
  · cases h

/-- A compound selector. -/
def compound : Production Tree := do
  let nsPrefix ← namespacePrefix?
  let element ← elementName? nsPrefix.isSome
  let conditions ← conditions
  match nsPrefix.toList ++ element.toList ++ conditions with
  | [] => reject fun s => .selector (.noSelector s.found)
  | part :: parts => return .node .simpleSelector part.first (part :: parts)

theorem compound_advances : Advances compound :=
  .bind namespacePrefix?_advances fun _ => .bind (elementName?_advances _) fun _ =>
    .bind conditions_advances fun _ => by
      split
      · exact .reject _
      · exact .pure _

theorem compound_consumes : Consumes compound := by
  intro s t rest h
  unfold compound at h
  simp only [Production.bind_apply] at h
  have h₁ := namespacePrefix?_advances s
  cases hp : namespacePrefix? s with
  | rejected e r =>
    rw [hp] at h
    cases h
  | accepted p s₁ =>
    rw [hp] at h h₁
    have l₁ : s₁.length ≤ s.length := h₁.length_le
    have h₂ := elementName?_advances p.isSome s₁
    dsimp only at h
    cases he : elementName? p.isSome s₁ with
    | rejected e r =>
      rw [he] at h
      cases h
    | accepted e s₂ =>
      rw [he] at h h₂
      have l₂ : s₂.length ≤ s₁.length := h₂.length_le
      have h₃ := conditions_advances s₂
      dsimp only at h
      cases hc : conditions s₂ with
      | rejected f r =>
        rw [hc] at h
        cases h
      | accepted cs s₃ =>
        rw [hc] at h h₃
        have l₃ : s₃.length ≤ s₂.length := h₃.length_le
        dsimp only at h
        cases hl : p.toList ++ e.toList ++ cs with
        | nil =>
          rw [hl] at h
          cases h
        | cons part parts =>
          rw [hl] at h
          cases h
          match p, e, cs with
          | some _, _, _ =>
            have := namespacePrefix?_length hp
            omega
          | none, some _, _ =>
            have := elementName?_length he
            omega
          | none, none, _ :: _ =>
            have := conditions_length hc
            omega
          | none, none, [] => cases hl

/-- The combinator in front of the next compound, if there is one to come. Two compounds back to back
    are an error. -/
def combinator? : Production (Option Tree) := fun s =>
  match s.skipBlank with
  | [] => .accepted none []
  | t :: rest =>
    if isCombinator t.kind then .accepted (some (single .combinator t.leaf)) (Tokens.skipBlank rest)
    else if startsCompound t.kind then
      match s with
      | b :: _ =>
        if Tokens.isBlank b then .accepted (some (single .combinator b.leaf)) (t :: rest)
        else .rejected (Tokens.fault s (.selector (.unexpected (Tokens.found s)))) s
      | [] => .accepted none []
    else .accepted none (t :: rest)

theorem combinator?_advances : Advances combinator? := by
  intro s
  have h := Tokens.skipBlank_suffix s
  unfold combinator?
  split
  · exact List.nil_suffix
  · rename_i t rest e
    rw [e] at h
    split
    · exact (Tokens.skipBlank_suffix rest).trans ((List.suffix_cons t rest).trans h)
    · split
      · split
        · split
          · exact h
          · exact List.suffix_refl _
        · exact List.nil_suffix
      · exact h

/-- Further compounds, each behind its combinator. -/
def selectorTail : Production (List Tree) := fun s =>
  match hc : combinator? s with
  | .rejected e rest => .rejected e rest
  | .accepted none rest => .accepted [] rest
  | .accepted (some combinator) between =>
    match hp : compound between with
    | .rejected e rest => .rejected e rest
    | .accepted part rest =>
      have : rest.length < s.length := by
        have h := combinator?_advances.length_le s
        rw [hc] at h
        exact Nat.lt_of_lt_of_le (compound_consumes between part rest hp) h
      (selectorTail rest).map (combinator :: part :: ·)
termination_by s => s.length

theorem selectorTail_advances (s : Tokens) : (selectorTail s).rest <:+ s := by
  fun_induction selectorTail s with
  | case1 s e rest h =>
    have := combinator?_advances s
    rwa [h] at this
  | case2 s rest h =>
    have := combinator?_advances s
    rwa [h] at this
  | case3 s c between h e rest h' =>
    have h₁ := combinator?_advances s
    have h₂ := compound_advances between
    rw [h] at h₁
    rw [h'] at h₂
    exact h₂.trans h₁
  | case4 s c between h part rest h' _ ih =>
    have h₁ := combinator?_advances s
    have h₂ := compound_advances between
    rw [h] at h₁
    rw [h'] at h₂
    rw [Outcome.rest_map]
    exact ih.trans (h₂.trans h₁)

/-- Compounds joined by combinators. -/
def selector : Production Tree := do
  let part ← compound
  let more ← selectorTail
  return .node .selector part.first (part :: more)

theorem selector_advances : Advances selector :=
  .bind compound_advances fun _ => .bind selectorTail_advances fun _ => .pure _

theorem selector_consumes : Consumes selector :=
  .bind compound_consumes fun _ => .bind selectorTail_advances fun _ => .pure _

/-- Further selectors, each behind a comma. -/
def selectorListTail : Production (List Tree) := fun s =>
  match s with
  | [] => .accepted [] []
  | comma :: rest =>
    if comma.kind = .comma then
      match h : selector (Tokens.skipBlank rest) with
      | .rejected e rest => .rejected e rest
      | .accepted next rest' =>
        have : rest'.length < rest.length + 1 := by
          have h₁ := selector_consumes _ next rest' h
          have h₂ := (Tokens.skipBlank_suffix rest).length_le
          omega
        (selectorListTail rest').map (comma.leaf :: next :: ·)
    else .accepted [] s
termination_by s => s.length

theorem selectorListTail_advances (s : Tokens) : (selectorListTail s).rest <:+ s := by
  fun_induction selectorListTail s with
  | case1 => exact List.suffix_refl _
  | case2 comma rest _ e left h =>
    have h₁ := selector_advances (Tokens.skipBlank rest)
    rw [h] at h₁
    exact h₁.trans ((Tokens.skipBlank_suffix rest).trans (List.suffix_cons comma rest))
  | case3 comma rest _ next left h _ ih =>
    have h₁ := selector_advances (Tokens.skipBlank rest)
    rw [h] at h₁
    rw [Outcome.rest_map]
    exact ih.trans (h₁.trans ((Tokens.skipBlank_suffix rest).trans (List.suffix_cons comma rest)))
  | case4 => exact List.suffix_refl _

/-- The selectors of a rule. -/
def selectorList : Production Tree := do
  let first ← selector
  let more ← selectorListTail
  return .node .selectorList first.first (first :: more)

/-- The selectors of a rule and the brace that opens its block. -/
def rulePrelude : Production (Tree × Tree) := do
  let selectors ← selectorList
  let brace ← take (· == .opening .brace) fun s => .selector (.unexpected s.found)
  return (selectors, brace)

theorem selectorList_advances : Advances selectorList :=
  .bind selector_advances fun _ => .bind selectorListTail_advances fun _ => .pure _

theorem rulePrelude_advances : Advances rulePrelude :=
  .bind selectorList_advances fun _ => .bind (.take _ _) fun _ => .pure _

theorem rulePrelude_consumes : Consumes rulePrelude :=
  .bind_right selectorList_advances fun _ => .bind (.take _ _) fun _ => .pure _

end Stylesheet.Grammar
