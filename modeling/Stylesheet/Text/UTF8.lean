/-!
# Reading bytes as UTF-8

`decodeLossy` turns any bytes into text. Where the bytes are no UTF-8, the longest run that begins a
valid sequence (or, if there is none, a single byte) is read as one U+FFFD.
-/

namespace Stylesheet.UTF8

/-- The shape of a sequence by its first byte: how many bytes follow, and the range of the second
    byte, which excludes overlong forms, surrogates and what lies above U+10FFFF. -/
structure Lead where
  following : Nat
  least : Nat
  most : Nat
deriving DecidableEq

/-- `none` for a byte that begins no sequence of several bytes. -/
def lead? (b : Nat) : Option Lead :=
  if 0xc2 ≤ b ∧ b ≤ 0xdf then some ⟨1, 0x80, 0xbf⟩
  -- below a0 a shorter form would do
  else if b = 0xe0 then some ⟨2, 0xa0, 0xbf⟩
  -- from a0 on these are surrogates
  else if b = 0xed then some ⟨2, 0x80, 0x9f⟩
  else if 0xe1 ≤ b ∧ b ≤ 0xef then some ⟨2, 0x80, 0xbf⟩
  -- below 90 a shorter form would do
  else if b = 0xf0 then some ⟨3, 0x90, 0xbf⟩
  else if 0xf1 ≤ b ∧ b ≤ 0xf3 then some ⟨3, 0x80, 0xbf⟩
  -- from 90 on the code is too large
  else if b = 0xf4 then some ⟨3, 0x80, 0x8f⟩
  else none

/-- The payload bits of a first byte with `following` bytes behind it. -/
def leadBits (following b : Nat) : Nat := b % Nat.pow 2 (6 - following)

/-- A sequence that is under way: the code so far, and what the next byte has to be. -/
structure Pending where
  code : Nat
  following : Nat
  least : Nat
  most : Nat

/-- One byte at a time; `pending` is the sequence that the earlier bytes began. A byte that cannot
    continue it ends it as U+FFFD and is then read on its own. -/
def decodeFrom (pending : Option Pending) : List Nat → List Char
  | [] => if pending.isSome then ['\ufffd'] else []
  | b :: rest =>
    match pending with
    | none => fresh b rest
    | some p =>
      if p.least ≤ b ∧ b ≤ p.most then
        let code := p.code * 64 + b % 64
        if p.following = 1 then Char.ofNat code :: decodeFrom none rest
        else decodeFrom (some ⟨code, p.following - 1, 0x80, 0xbf⟩) rest
      else '\ufffd' :: fresh b rest
where
  /-- A byte at which nothing is under way. -/
  fresh (b : Nat) (rest : List Nat) : List Char :=
    if b < 0x80 then Char.ofNat b :: decodeFrom none rest
    else match lead? b with
      | none => '\ufffd' :: decodeFrom none rest
      | some l => decodeFrom (some ⟨leadBits l.following b, l.following, l.least, l.most⟩) rest

/-- The text of `bytes`, with U+FFFD for each run that is no UTF-8. -/
def decodeLossy (bytes : List Nat) : String := String.ofList (decodeFrom none bytes)

end Stylesheet.UTF8
