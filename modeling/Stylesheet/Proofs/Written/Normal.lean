import Stylesheet.Proofs.Written.Number
import Stylesheet.Reading.Value

/-!
# Values in normal form

The values that a text can say. Lists are grouped by the strength of their separators: the items of a
list bind tighter than the list does (`Value.rank`), and there are at least two of them. A name is not
empty, no text holds the null character, no number is an infinity, and no call stands for an address
or a color. A named argument stands only in a call, and not in another one.
-/

namespace Stylesheet

namespace Value

/-- How tight a value binds: a list as its separator does, anything else tighter than any list. -/
def rank : Value → Nat
  | .list separator _ => separator.strength
  | _ => 3

mutual

/-- The normal form of a value, or of an argument if it may be `named`. -/
def IsNormal (named : Bool) : Value → Prop
  | .string content => nul ∉ content.toList
  | .number value unit => value.IsFinite ∧ ∀ u ∈ unit, IsName u
  | .ident name => IsName name
  | .color _ => True
  | .url address => nul ∉ address.toList
  | .call name arguments =>
    IsName name ∧ sameWord name "url" = false ∧ colorCall? name arguments = none ∧
      NormalItems true Separator.comma.strength arguments
  | .named name value => named = true ∧ IsName name ∧ value.rank = 3 ∧ IsNormal false value
  | .list separator items => 2 ≤ items.length ∧ NormalItems named separator.strength items

/-- Values in normal form that all bind tighter than `strength`. -/
def NormalItems (named : Bool) (strength : Nat) : List Value → Prop
  | [] => True
  | v :: rest => IsNormal named v ∧ strength < v.rank ∧ NormalItems named strength rest

end

mutual

/-- The normal form can be computed. -/
instance decidableNormal (named : Bool) : (v : Value) → Decidable (v.IsNormal named)
  | .string content => inferInstanceAs (Decidable (nul ∉ content.toList))
  | .number value unit => inferInstanceAs (Decidable (value.IsFinite ∧ ∀ u ∈ unit, IsName u))
  | .ident name => inferInstanceAs (Decidable (IsName name))
  | .color _ => inferInstanceAs (Decidable True)
  | .url address => inferInstanceAs (Decidable (nul ∉ address.toList))
  | .call name arguments =>
    have := decidableNormalItems true Separator.comma.strength arguments
    inferInstanceAs (Decidable (IsName name ∧ sameWord name "url" = false ∧
      colorCall? name arguments = none ∧ NormalItems true Separator.comma.strength arguments))
  | .named name value =>
    have := decidableNormal false value
    inferInstanceAs (Decidable (named = true ∧ IsName name ∧ value.rank = 3 ∧ IsNormal false value))
  | .list separator items =>
    have := decidableNormalItems named separator.strength items
    inferInstanceAs (Decidable (2 ≤ items.length ∧ NormalItems named separator.strength items))

instance decidableNormalItems (named : Bool) (strength : Nat) :
    (items : List Value) → Decidable (NormalItems named strength items)
  | [] => inferInstanceAs (Decidable True)
  | v :: rest =>
    have := decidableNormal named v
    have := decidableNormalItems named strength rest
    inferInstanceAs (Decidable (IsNormal named v ∧ strength < v.rank ∧ NormalItems named strength rest))

end

mutual

/-- The numbers in a value. -/
def numbers : Value → List Single
  | .number value _ => [value]
  | .call _ arguments => numbersAll arguments
  | .named _ value => numbers value
  | .list _ items => numbersAll items
  | _ => []

def numbersAll : List Value → List Single
  | [] => []
  | v :: rest => numbers v ++ numbersAll rest

end

end Value

end Stylesheet
