import Stylesheet.Lexeme.Name

/-!
# Addresses without quotes

What stands between `url(` and its parenthesis when no quote begins it. Blanks may stand at both
ends. A quote, an opening parenthesis, a control character, an escaped newline, or anything behind a
blank makes the address malformed; it then still reaches to the next parenthesis that no backslash
stands in front of.
-/

namespace Stylesheet

/-- An address as it was read. A malformed one has no content, and `rest` begins at the parenthesis
    that ends it; a good one is closed, and `rest` stands behind the parenthesis. -/
inductive Address where
  | good (value : List Char) (rest : List Char)
  | malformed (rest : List Char)

namespace Address

def cons (c : Char) : Address → Address
  | .good value rest => .good (c :: value) rest
  | .malformed rest => .malformed rest

def rest : Address → List Char
  | .good _ rest => rest
  | .malformed rest => rest

@[simp] theorem rest_cons (c : Char) (a : Address) : (a.cons c).rest = a.rest := by
  cases a <;> rfl

end Address

/-- From the place where an address went wrong to the parenthesis that ends it. -/
def malformedEnd : List Char → List Char
  | [] => []
  | '\\' :: c :: rest => if c == ')' || c == '\\' then malformedEnd rest else malformedEnd (c :: rest)
  | c :: rest => if c == ')' then c :: rest else malformedEnd rest

/-- A blank inside an address: only blanks may follow it. -/
def addressEnd (cs : List Char) : Address :=
  match cs.dropWhile isBlank with
  | [] => .good [] []
  | c :: rest => if c == ')' then .good [] rest else .malformed (malformedEnd rest)

/-- Characters that an address may hold only escaped. -/
def isForbiddenInAddress (c : Char) : Bool :=
  c == '"' || c == '\'' || c == '(' || (isControl c && c != nul)

/-- Reads an address behind the blanks at its start. -/
def address : List Char → Address
  | [] => .good [] []
  | c :: rest =>
    if c == ')' then .good [] rest
    else if isBlank c then addressEnd rest
    else if isForbiddenInAddress c then .malformed (malformedEnd rest)
    else if c == '\\' then
      if startsNewline rest then .malformed (malformedEnd rest)
      else
        have := (escape_suffix rest).length_le
        (address (escape rest).2).cons (escape rest).1
    else (address rest).cons (unNul c)
termination_by cs => cs.length

theorem malformedEnd_suffix (cs : List Char) : malformedEnd cs <:+ cs := by
  fun_induction malformedEnd cs with
  | case1 => exact List.suffix_refl _
  | case2 c rest _ ih => exact ih.trans ((List.suffix_cons c rest).trans (List.suffix_cons _ _))
  | case3 c rest _ ih => exact ih.trans (List.suffix_cons _ _)
  | case4 => exact List.suffix_refl _
  | case5 c rest _ _ ih => exact ih.trans (List.suffix_cons c rest)

theorem addressEnd_suffix (cs : List Char) : (addressEnd cs).rest <:+ cs := by
  have h := List.dropWhile_suffix isBlank (l := cs)
  unfold addressEnd
  split
  · exact List.nil_suffix
  · rename_i c rest e
    rw [e] at h
    split
    · exact (List.suffix_cons c rest).trans h
    · exact (malformedEnd_suffix rest).trans ((List.suffix_cons c rest).trans h)

theorem address_suffix (cs : List Char) : (address cs).rest <:+ cs := by
  fun_induction address cs with
  | case1 => exact List.suffix_refl _
  | case2 c rest => exact List.suffix_cons c rest
  | case3 c rest => exact (addressEnd_suffix rest).trans (List.suffix_cons c rest)
  | case4 c rest => exact (malformedEnd_suffix rest).trans (List.suffix_cons c rest)
  | case5 c rest => exact (malformedEnd_suffix rest).trans (List.suffix_cons c rest)
  | case6 c rest _ _ _ _ _ _ ih =>
    rw [Address.rest_cons]
    exact ih.trans ((escape_suffix rest).trans (List.suffix_cons c rest))
  | case7 c rest _ _ _ _ ih =>
    rw [Address.rest_cons]
    exact ih.trans (List.suffix_cons c rest)

end Stylesheet
