import Stylesheet.Grammar.Value

/-!
# Media queries

    query list   (query (',' query)*)?
    query        ((('only' | 'not') IDENT | IDENT) | feature) ('and' feature)*
    feature      '(' IDENT (':' value)? ')'

The words `only`, `not` and `and` count in any case. `only` and `not` are qualifiers only if another
word follows; alone they are media types. The word `and` is no media type.
-/

namespace Stylesheet.Grammar

open Production

def isWord (word : String) : TokenKind → Bool
  | .ident name => sameWord name word
  | _ => false

def isAnd (k : TokenKind) : Bool := isWord "and" k

def isQualifier (k : TokenKind) : Bool := isWord "only" k || isWord "not" k

/-- A word that may stand for a media type. -/
def isMediaType (k : TokenKind) : Bool := k.isIdent && !isAnd k

theorem isMediaType_of_isQualifier {k : TokenKind} (h : isQualifier k = true) :
    isMediaType k = true := by
  cases k with
  | ident name =>
    simp only [isQualifier, isWord, sameWord, Bool.or_eq_true, beq_iff_eq] at h
    simp only [isMediaType, TokenKind.isIdent, isAnd, isWord, sameWord]
    rcases h with h | h <;> rw [h] <;> decide
  | _ => contradiction

/-- The next token is none that may stand here. -/
def unexpectedInMedia (s : Tokens) : Fault.Cause := .mediaQuery (.unexpected s.found)

/-- The value of a feature, behind its colon, or nothing. -/
def featureValue : Production (List Tree) := do
  match ← take? (· == .colon) with
  | none => return []
  | some colon =>
    blank
    let value ← value false
    blank
    return [colon, value]

/-- `(name)` or `(name: value)`. -/
def mediaFeature : Production Tree := do
  let paren ← take (· == .opening .paren) unexpectedInMedia
  blank
  let name ← take TokenKind.isIdent fun s => .mediaQuery (.noFeatureName s.found)
  blank
  let value ← featureValue
  let close ← take isClosingParen fun s => .mediaQuery (.noClosingParen s.found)
  return .node .mediaFeature paren.first (paren :: name :: (value ++ [close]))

/-- Whether a qualifier stands at the front, with a word behind it. -/
def startsQualified (s : Tokens) : Bool :=
  match s with
  | [] => false
  | t :: rest => isQualifier t.kind && (Tokens.skipBlank rest).startsWith TokenKind.isIdent

/-- A media type with or without a qualifier, or a first feature. -/
def mediaQueryHead : Production (List Tree) := do
  blank
  let s ← ahead
  if startsQualified s then
    let qualifier ← take isQualifier unexpectedInMedia
    blank
    let mediaType ← take isMediaType unexpectedInMedia
    return [qualifier, mediaType]
  else if s.startsWith isMediaType then
    let mediaType ← take isMediaType unexpectedInMedia
    return [mediaType]
  else
    let feature ← mediaFeature
    return [feature]

/-- `and` and a feature. -/
def furtherFeature : Production (List Tree) := do
  let and ← take isAnd unexpectedInMedia
  blank
  let feature ← mediaFeature
  return [and, feature]

theorem featureValue_advances : Advances featureValue :=
  .bind (.take? _) fun
    | none => .pure _
    | some _ => .bind .blank fun _ => .bind (value_advances false) fun _ =>
      .bind .blank fun _ => .pure _

theorem mediaFeature_advances : Advances mediaFeature :=
  .bind (.take _ _) fun _ => .bind .blank fun _ => .bind (.take _ _) fun _ => .bind .blank fun _ =>
    .bind featureValue_advances fun _ => .bind (.take _ _) fun _ => .pure _

theorem mediaFeature_consumes : Consumes mediaFeature :=
  .bind (.take _ _) fun _ => .bind .blank fun _ => .bind (.take _ _) fun _ => .bind .blank fun _ =>
    .bind featureValue_advances fun _ => .bind (.take _ _) fun _ => .pure _

theorem mediaQueryHead_advances : Advances mediaQueryHead :=
  .bind .blank fun _ => .bind .ahead fun _ =>
    .ite (.bind (.take _ _) fun _ => .bind .blank fun _ => .bind (.take _ _) fun _ => .pure _)
      (.ite (.bind (.take _ _) fun _ => .pure _) (.bind mediaFeature_advances fun _ => .pure _))

theorem mediaQueryHead_consumes : Consumes mediaQueryHead :=
  .bind_right .blank fun _ => .bind_right .ahead fun _ =>
    .ite (.bind (.take _ _) fun _ => .bind .blank fun _ => .bind (.take _ _) fun _ => .pure _)
      (.ite (.bind (.take _ _) fun _ => .pure _) (.bind mediaFeature_consumes fun _ => .pure _))

theorem furtherFeature_advances : Advances furtherFeature :=
  .bind (.take _ _) fun _ => .bind .blank fun _ => .bind mediaFeature_advances fun _ => .pure _

theorem furtherFeature_consumes : Consumes furtherFeature :=
  .bind (.take _ _) fun _ => .bind .blank fun _ => .bind mediaFeature_advances fun _ => .pure _

/-- Further features, each behind the word `and`. -/
def furtherFeatures : Production (List Tree) := fun s =>
  if (Tokens.skipBlank s).startsWith isAnd then
    match h : furtherFeature (Tokens.skipBlank s) with
    | .rejected e rest => .rejected e rest
    | .accepted feature rest =>
      have : rest.length < s.length :=
        Nat.lt_of_lt_of_le (furtherFeature_consumes _ feature rest h) (skipBlank_length_le s)
      (furtherFeatures rest).map (feature ++ ·)
  else .accepted [] (Tokens.skipBlank s)
termination_by s => s.length

theorem furtherFeatures_advances (s : Tokens) : (furtherFeatures s).rest <:+ s := by
  fun_induction furtherFeatures s with
  | case1 s _ e rest h =>
    have h₁ := furtherFeature_advances (Tokens.skipBlank s)
    rw [h] at h₁
    exact h₁.trans (Tokens.skipBlank_suffix s)
  | case2 s _ feature rest h _ ih =>
    have h₁ := furtherFeature_advances (Tokens.skipBlank s)
    rw [h] at h₁
    rw [Outcome.rest_map]
    exact ih.trans (h₁.trans (Tokens.skipBlank_suffix s))
  | case3 s => exact Tokens.skipBlank_suffix s

/-- One query. It stands at its first token that is no blank. -/
def mediaQuery : Production Tree := do
  let s ← ahead
  let head ← mediaQueryHead
  let more ← furtherFeatures
  return .node .mediaQuery (s.skipBlank.head?.elim 0 (·.index)) (head ++ more)

/-- Nothing but blanks is no query. -/
theorem mediaQuery_blank {s : Tokens} (h : Tokens.skipBlank s = []) :
    mediaQuery s = .rejected (Tokens.fault [] (unexpectedInMedia [])) [] := by
  simp only [mediaQuery, mediaQueryHead, mediaFeature, bind_apply, ahead_apply,
    blank_apply, h]
  rfl

theorem mediaQuery_advances : Advances mediaQuery :=
  .bind .ahead fun _ => .bind mediaQueryHead_advances fun _ =>
    .bind furtherFeatures_advances fun _ => .pure _

theorem mediaQuery_consumes : Consumes mediaQuery :=
  .bind_right .ahead fun _ => .bind mediaQueryHead_consumes fun _ =>
    .bind furtherFeatures_advances fun _ => .pure _

/-- Further queries, each behind a comma. -/
def furtherQueries : Production (List Tree) := fun s =>
  match s with
  | [] => .accepted [] []
  | comma :: rest =>
    if comma.kind = .comma then
      match h : mediaQuery rest with
      | .rejected e rest => .rejected e rest
      | .accepted next rest' =>
        have : rest'.length < rest.length + 1 :=
          Nat.lt_succ_of_lt (mediaQuery_consumes _ next rest' h)
        (furtherQueries rest').map (comma.leaf :: next :: ·)
    else .accepted [] s
termination_by s => s.length

theorem furtherQueries_advances (s : Tokens) : (furtherQueries s).rest <:+ s := by
  fun_induction furtherQueries s with
  | case1 => exact List.suffix_refl _
  | case2 comma rest _ e left h =>
    have h₁ := mediaQuery_advances rest
    rw [h] at h₁
    exact h₁.trans (List.suffix_cons comma rest)
  | case3 comma rest _ next left h _ ih =>
    have h₁ := mediaQuery_advances rest
    rw [h] at h₁
    rw [Outcome.rest_map]
    exact ih.trans (h₁.trans (List.suffix_cons comma rest))
  | case4 => exact List.suffix_refl _

/-- The queries in front of a block; there may be none. -/
def mediaQueries : Production (List Tree) := do
  let s ← ahead
  if s.startsWith (· == .opening .brace) then return []
  else
    let first ← mediaQuery
    let more ← furtherQueries
    return first :: more

/-- The queries and the brace that opens the block. -/
def mediaPrelude : Production (Tree × Tree) := do
  let s ← ahead
  let queries ← mediaQueries
  let brace ← take (· == .opening .brace) unexpectedInMedia
  return (.node .mediaQueryList (s.head?.elim 0 (·.index)) queries, brace)

theorem mediaPrelude_advances : Advances mediaPrelude :=
  .bind .ahead fun _ => .bind
    (.bind .ahead fun _ => .ite (.pure _)
      (.bind mediaQuery_advances fun _ => .bind furtherQueries_advances fun _ => .pure _))
    fun _ => .bind (.take _ _) fun _ => .pure _

end Stylesheet.Grammar
