/-!
# Message templates

A template is text with named places. `source` writes it with each place as a marker, `fill` with the
values that are given; a place without a value keeps its marker, and a value is put in as it is,
whatever it contains. `substitute` works on the written text: it finds the markers there.
-/

namespace Stylesheet

/-- A part of a template: text, or the place for a value. -/
inductive Piece where
  | text (s : String)
  | place (name : String)
deriving DecidableEq, Repr

/-- The text of a message with named places. -/
abbrev Template := List Piece

namespace Piece

/-- How a place is marked where no value stands for it. -/
def marker (name : String) : String := "$\x7b" ++ name ++ "\x7d"

def source : Piece → String
  | .text s => s
  | .place name => marker name

def fill (value? : String → Option String) : Piece → String
  | .text s => s
  | .place name => (value? name).getD (marker name)

def place? : Piece → Option String
  | .text _ => none
  | .place name => some name

end Piece

namespace Template

/-- The template as it is written, with markers. -/
def source (t : Template) : String := String.join (t.map Piece.source)

/-- The message: every place that has a value shows it. -/
def fill (t : Template) (value? : String → Option String) : String :=
  String.join (t.map (Piece.fill value?))

/-- The names of the places, in order. -/
def places (t : Template) : List String := t.filterMap Piece.place?

/-- Puts values in for the markers of a text, in one pass from the front: what was put in is not read
    again. A marker without a value stays, and so does a marker without an end, with all behind it. -/
def substitute (value? : String → Option String) : List Char → List Char
  | '$' :: '\x7b' :: after =>
    match _h : after.dropWhile (· != '\x7d') with
    | [] => '$' :: '\x7b' :: after
    | _ :: behind =>
      let name := String.ofList (after.takeWhile (· != '\x7d'))
      ((value? name).getD (Piece.marker name)).toList ++ substitute value? behind
  | c :: cs => c :: substitute value? cs
  | [] => []
termination_by cs => cs.length
decreasing_by
  · have hs := List.IsSuffix.length_le (List.dropWhile_suffix (l := after) (· != '\x7d'))
    rw [_h] at hs
    simp only [List.length_cons] at hs ⊢
    omega
  · simp

end Template

end Stylesheet
