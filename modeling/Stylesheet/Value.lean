import Stylesheet.Color
import Stylesheet.Number.Decimal
import Stylesheet.Text.Escaped

/-!
# Values of properties

A value is a single item or a list with a separator. A slash binds tighter than a blank, and a blank
tighter than a comma, so a value as it is parsed is a list with commas of lists with blanks of lists
with slashes, each level left out where it would hold one item. `Value.toText` writes a value so
that it reads back as itself.
-/

namespace Stylesheet

/-- What stands between the items of a list. -/
inductive Separator where
  | comma
  | space
  | slash
deriving DecidableEq, Repr, Inhabited

namespace Separator

/-- The separator as it is written. -/
def toText : Separator → String
  | .comma => ", "
  | .space => " "
  | .slash => "/"

/-- The looser separator has the lower strength. -/
def strength : Separator → Nat
  | .comma => 0
  | .space => 1
  | .slash => 2

end Separator

inductive Value where
  | string (content : String)
  | number (value : Single) (unit : Option String)
  | ident (name : String)
  | color (c : Color)
  | url (address : String)
  /-- A function with its arguments. -/
  | call (name : String) (arguments : List Value)
  /-- `name=value`, an argument of a function. -/
  | named (name : String) (value : Value)
  | list (separator : Separator) (items : List Value)
deriving Inhabited

namespace Value

mutual

/-- Equality, where numbers are equal as numbers. -/
def equal : Value → Value → Bool
  | .string a, .string b => a == b
  | .number a u, .number b v => a.equal b && u == v
  | .ident a, .ident b => a == b
  | .color a, .color b => a == b
  | .url a, .url b => a == b
  | .call a as, .call b bs => a == b && equalAll as bs
  | .named a x, .named b y => a == b && equal x y
  | .list s as, .list t bs => s == t && equalAll as bs
  | _, _ => false

def equalAll : List Value → List Value → Bool
  | [], [] => true
  | a :: as, b :: bs => equal a b && equalAll as bs
  | _, _ => false

end

def asIdent? : Value → Option String
  | .ident name => some name
  | _ => none

def asString? : Value → Option String
  | .string content => some content
  | _ => none

def asColor? : Value → Option Color
  | .color c => some c
  | _ => none

def asNumber? : Value → Option (Single × Option String)
  | .number value unit => some (value, unit)
  | _ => none

def asUrl? : Value → Option String
  | .url address => some address
  | _ => none

/-- A word: the content of a string or an identifier. -/
def asWord? (v : Value) : Option String := v.asString?.or v.asIdent?

/-- The items of a list, and any other value as the only item. -/
def items : Value → List Value
  | .list _ items => items
  | v => [v]

/-- The arguments that a value between parentheses stands for: the items of a comma list, and any
    other value by itself. -/
def commaItems : Value → List Value
  | .list .comma items => items
  | v => [v]

/-- A number with its unit. The percent sign is written as it is. -/
def numberText (value : Single) (unit : Option String) : String :=
  match unit with
  | none => value.toText
  | some u =>
    value.toText ++ if u = "%" then "%" else String.ofList (writeUnit u.toList)

mutual

def toText : Value → String
  | .string content => String.ofList (writeString content.toList)
  | .number value unit => numberText value unit
  | .ident name => String.ofList (writeIdent name.toList)
  | .color c => c.toText
  | .url address => "url(" ++ String.ofList (writeString address.toList) ++ ")"
  | .call name arguments =>
    String.ofList (writeIdent name.toList) ++ "(" ++ joined ", " arguments ++ ")"
  | .named name value => String.ofList (writeIdent name.toList) ++ "=" ++ toText value
  | .list separator items => joined separator.toText items

/-- The texts of values with a separator between them. -/
def joined (separator : String) : List Value → String
  | [] => ""
  | v :: rest => toText v ++ joinedTail separator rest

/-- The texts of values, each behind a separator. -/
def joinedTail (separator : String) : List Value → String
  | [] => ""
  | v :: rest => separator ++ toText v ++ joinedTail separator rest

end

end Value

end Stylesheet
