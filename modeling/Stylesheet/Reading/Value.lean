import Stylesheet.Reading.Basic
import Stylesheet.Value

/-!
# Values from trees

The terms of a value stand side by side in the tree, with the tokens that separate them.
`Value.combine` groups them: at commas first, then at blanks, then at slashes, and a group of one is
the value itself. Numbers in `rgb` and `rgba` become a color, and so do the digits behind a `#`.
-/

namespace Stylesheet

namespace Value

/-- Splits a row of values, each behind its separator, at one of the separators. -/
def groups (separator : Separator) (v : Value) :
    List (Separator × Value) → List (Value × List (Separator × Value))
  | [] => [(v, [])]
  | (s, w) :: rest =>
    if s = separator then (v, []) :: groups separator w rest
    else
      -- the rest begins inside the same group, so `v` goes in front of its first group
      match groups separator w rest with
      | [] => [(v, [])]
      | (u, more) :: others => (v, (s, u) :: more) :: others

/-- A list of the groups between one separator, each read by `inner`. A single group is no list. -/
def grouped (separator : Separator) (inner : Value → List (Separator × Value) → Value) (v : Value)
    (rest : List (Separator × Value)) : Value :=
  match groups separator v rest with
  | [(u, more)] => inner u more
  | all => .list separator (all.map fun (u, more) => inner u more)

/-- The value of a row of values, each behind its separator. -/
def combine : Value → List (Separator × Value) → Value :=
  grouped .comma (grouped .space (grouped .slash fun v _ => v))

/-- A hundredth of 255, for channels in percent. -/
def percentStep : Single := .ofDecimal .single false 255 (-2)

/-- A channel of a color: a number, or percent of 255. -/
def channel? (v : Value) : Option UInt8 :=
  match v with
  | .number n none => some n.toByte
  | .number n (some "%") => some (n * percentStep).toByte
  | _ => none

/-- The opacity of a color, from 0 to 1. -/
def opacity? (v : Value) : Option UInt8 :=
  match v with
  | .number n none => some (n.clampUnit * Binary.ofNat .single 255).toByte
  | _ => none

/-- The color that a function call stands for. -/
def colorCall? (name : String) (arguments : List Value) : Option Color :=
  if sameWord name "rgb" then
    match arguments with
    | [r, g, b] => do return ⟨← r.channel?, ← g.channel?, ← b.channel?, 255⟩
    | _ => none
  else if sameWord name "rgba" then
    match arguments with
    | [r, g, b, a] => do return ⟨← r.channel?, ← g.channel?, ← b.channel?, ← a.opacity?⟩
    | _ => none
  else none

/-- A function call, unless it stands for a color. -/
def ofCall (name : String) (arguments : List Value) : Value :=
  match colorCall? name arguments with
  | some c => .color c
  | none => .call name arguments

end Value

namespace Reading

/-- The separator that a token is. -/
def separator? (r : Reading) (index : Nat) : Option Separator :=
  match r.kind? index with
  | some .comma => some .comma
  | some .slash => some .slash
  | some .whitespace => some .space
  | _ => none

/-- A hash as a color. Digits that spell none are reported, and the token stands for itself. -/
def hashValue (r : Reading) (t : Token) (digits : String) : Noted Value :=
  match Color.ofHex? digits with
  | some c => return .color c
  | none => do
    Noted.report (r.problem .invalidColor t.span [("color", t.text)])
    return .ident t.text

/-- A single token as a value. -/
def literal (r : Reading) (index : Nat) : Noted (Option Value) :=
  match r.tokens[index]? with
  | none => return none
  | some t =>
    match t.kind with
    | .number n => return some (.number n none)
    | .percentage n => return some (.number n (some "%"))
    | .dimension n unit => return some (.number n (some unit))
    | .string content => return some (.string content)
    | .ident name => return some (.ident name)
    | .url address => return some (.url address)
    | .hash digits _ => do return some (← r.hashValue t digits)
    | _ => return none

/-- The name of a function token. -/
def functionName? (r : Reading) (index : Nat) : Option String :=
  match r.kind? index with
  | some (.function name) => some name
  | _ => none

mutual

/-- A term, a function call or a named argument. -/
def term (r : Reading) : Tree → Noted (Option Value)
  | .node .term place children => r.literal (Tree.first (.node .term place children))
  | .node .functionCall place children =>
    match r.functionName? (Tree.first (.node .functionCall place children)) with
    | none => return none
    | some name => do
      let arguments ← r.arguments children
      return arguments.map (Value.ofCall name)
  | .node .namedArgument place children =>
    match r.ident? (Tree.first (.node .namedArgument place children)) with
    | none => return none
    | some name => do
      let value ← r.firstTerm children
      return value.map (Value.named name)
  | _ => return none

/-- The first node among trees, read as a term. -/
def firstTerm (r : Reading) : List Tree → Noted (Option Value)
  | [] => return none
  | .leaf _ :: rest => r.firstTerm rest
  | .node kind place children :: _ => r.term (.node kind place children)

/-- The arguments of a function: the items of the first value among trees, none if there is none. -/
def arguments (r : Reading) : List Tree → Noted (Option (List Value))
  | [] => return some []
  | .node .value _ children :: _ => do
    match ← r.row none children with
    | [] => return none
    | (_, v) :: rest => return some (Value.combine v rest).commaItems
  | _ :: rest => r.arguments rest

/-- The terms of a value, each with the separator in front of it; `pending` is the separator that was
    read last. Where there is none, the separator is a blank. -/
def row (r : Reading) (pending : Option Separator) : List Tree → Noted (List (Separator × Value))
  | [] => return []
  | .leaf index :: rest => r.row ((r.separator? index).or pending) rest
  | .node kind place children :: rest => do
    match ← r.term (.node kind place children) with
    | none => r.row pending rest
    | some v =>
      let more ← r.row none rest
      return (pending.getD .space, v) :: more

end

/-- The value of a value node. -/
def value (r : Reading) (t : Tree) : Noted (Option Value) := do
  match ← r.row none t.children with
  | [] => return none
  | (_, v) :: rest => return some (Value.combine v rest)

end Reading

end Stylesheet
