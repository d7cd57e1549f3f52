import Stylesheet.Grammar.Skip
import Stylesheet.Grammar.Value

/-!
# Declarations and their blocks

    declaration   IDENT ':' value IMPORTANT? (';' | in front of '}' or the end)
    block         '{' (declaration | ';')* '}'

A declaration that does not fit is reported and skipped, and the block goes on behind it. A block
that the input ends in is reported as unclosed.
-/

namespace Stylesheet

/-- Where a list of tokens comes from, and where it ends: the number and the place of its `eof`. -/
structure Setting where
  source : String
  stopIndex : Nat
  stopSpan : Span

namespace Setting

def problem (st : Setting) (f : Fault) : Problem := f.problem st.source st.stopSpan

/-- The number of the next token. -/
def position (st : Setting) (s : Tokens) : Nat := (s.head?.map Placed.index).getD st.stopIndex

end Setting

/-- What was read by a production that goes on behind what does not fit, with the problems reported. -/
structure Parsed (α : Type) where
  result : α
  problems : List Problem
  rest : Tokens

namespace Parsed

variable {α β : Type}

def map (f : α → β) (p : Parsed α) : Parsed β := ⟨f p.result, p.problems, p.rest⟩

/-- Puts problems in front. -/
def report (problems : List Problem) (p : Parsed α) : Parsed α :=
  { p with problems := problems ++ p.problems }

/-- Puts a tree in front. -/
def cons (t : Tree) (p : Parsed (List Tree)) : Parsed (List Tree) :=
  { p with result := t :: p.result }

@[simp] theorem rest_map (f : α → β) (p : Parsed α) : (p.map f).rest = p.rest := rfl

@[simp] theorem rest_report (problems : List Problem) (p : Parsed α) :
    (p.report problems).rest = p.rest := rfl

@[simp] theorem rest_cons (t : Tree) (p : Parsed (List Tree)) : (p.cons t).rest = p.rest := rfl

end Parsed

namespace Grammar

open Production

/-- The tokens that leave a declaration without a value. -/
def endsEmpty : TokenKind → Bool
  | .semicolon | .closing .brace | .important => true
  | _ => false

/-- Stops if no value is to come; the fault is that of the property name. -/
def valueAhead (name : Option Placed) : Production Unit := fun s =>
  if s.isEmpty || s.startsWith endsEmpty then
    .rejected ⟨.noPropertyValue ((name.map (·.token.text)).getD ""), name.map (·.token.span)⟩ s
  else .accepted () s

/-- The semicolon of a declaration. In front of a closing brace and at the end there may be none. -/
def declarationEnd : Production (List Tree) := do
  match ← take? (· == .semicolon) with
  | some semicolon => return [semicolon]
  | none =>
    let s ← ahead
    if s.isEmpty || s.startsWith (· == .closing .brace) then return []
    else reject fun _ => .missingSemicolon

/-- `name: value !important;` -/
def declaration : Production Tree := do
  let s ← ahead
  let name ← take TokenKind.isIdent fun s => .unexpectedToken "property name" s.found
  blank
  let colon ← take (· == .colon) fun s => .unexpectedToken "':'" s.found
  blank
  valueAhead s.head?
  let value ← value false
  blank
  let important ← take? (· == .important)
  blank
  let semicolon ← declarationEnd
  return .node .declaration name.first
    (name :: colon :: value :: (important.toList ++ semicolon))

theorem valueAhead_advances (name : Option Placed) : Advances (valueAhead name) := by
  intro s
  unfold valueAhead
  split <;> exact List.suffix_refl _

theorem declarationEnd_advances : Advances declarationEnd :=
  .bind (.take? _) fun
    | some _ => .pure _
    | none => .bind .ahead fun _ => .ite (.pure _) (.reject _)

theorem declaration_advances : Advances declaration :=
  .bind .ahead fun _ => .bind (.take _ _) fun _ => .bind .blank fun _ => .bind (.take _ _) fun _ =>
    .bind .blank fun _ => .bind (valueAhead_advances _) fun _ => .bind (value_advances false) fun _ =>
    .bind .blank fun _ => .bind (.take? _) fun _ => .bind .blank fun _ =>
    .bind declarationEnd_advances fun _ => .pure _

theorem declaration_consumes : Consumes declaration :=
  .bind_right .ahead fun _ => .bind (.take _ _) fun _ => .bind .blank fun _ =>
    .bind (.take _ _) fun _ => .bind .blank fun _ => .bind (valueAhead_advances _) fun _ =>
    .bind (value_advances false) fun _ => .bind .blank fun _ => .bind (.take? _) fun _ =>
    .bind .blank fun _ => .bind declarationEnd_advances fun _ => .pure _

/-- Behind a declaration that does not fit, less is left. -/
theorem skipDeclaration_rejected {t : Placed} {rest left : Tokens} {f : Fault}
    (h : declaration (t :: rest) = .rejected f left) (ht : t.kind ≠ .closing .brace) :
    (skipDeclaration 0 left).rest <:+ rest := by
  have hs := declaration_advances (t :: rest)
  rw [h] at hs
  rcases List.suffix_cons_iff.1 hs with e | e
  · change left = t :: rest at e
    rw [e]
    exact skipDeclaration_suffix_tail ht
  · exact (skipDeclaration_suffix left 0).trans e

/-- The content of a block behind its opening brace, with the closing one. -/
def declarations (st : Setting) (s : Tokens) : Parsed (List Tree) :=
  have hs := skipBlank_length_le s
  match h : Tokens.skipBlank s with
  | [] => ⟨[], [st.problem ⟨.missingCloseBrace, none⟩], []⟩
  | t :: rest =>
    have ht : rest.length < s.length := by
      rw [h] at hs
      exact hs
    if hb : t.kind = .closing .brace then ⟨[t.leaf], [], rest⟩
    else if t.kind = .semicolon then (declarations st rest).cons t.leaf
    else
      match hd : declaration (t :: rest) with
      | .accepted d left =>
        have : left.length < s.length :=
          Nat.lt_of_lt_of_le (declaration_consumes _ d left hd) ht
        (declarations st left).cons d
      | .rejected f left =>
        have : (skipDeclaration 0 left).rest.length < s.length :=
          Nat.lt_of_le_of_lt (skipDeclaration_rejected hd hb).length_le ht
        ((declarations st (skipDeclaration 0 left).rest).cons
          (.node .error (st.position left) (skipDeclaration 0 left).leaves)).report [st.problem f]
termination_by s.length

theorem declarations_suffix (st : Setting) (s : Tokens) : (declarations st s).rest <:+ s := by
  have hs := Tokens.skipBlank_suffix s
  fun_induction declarations st s with
  | case1 => exact List.nil_suffix
  | case2 s _ t rest h =>
    rw [h] at hs
    exact (List.suffix_cons t rest).trans hs
  | case3 s _ t rest h _ _ _ ih =>
    rw [h] at hs
    exact (ih (Tokens.skipBlank_suffix rest)).trans ((List.suffix_cons t rest).trans hs)
  | case4 s _ t rest h _ _ _ d left hd _ ih =>
    rw [h] at hs
    have h₁ := declaration_advances (t :: rest)
    rw [hd] at h₁
    exact (ih (Tokens.skipBlank_suffix left)).trans (h₁.trans hs)
  | case5 s _ t rest h _ hb _ f left hd _ ih =>
    rw [h] at hs
    exact (ih (Tokens.skipBlank_suffix _)).trans ((skipDeclaration_rejected hd hb).trans
      ((List.suffix_cons t rest).trans hs))

/-- A block behind its opening brace. -/
def declarationBlock (st : Setting) (brace : Tree) (s : Tokens) : Parsed Tree :=
  (declarations st s).map fun content => .node .declarationBlock brace.first (brace :: content)

end Grammar

end Stylesheet
