import Contracts.Text.Basic

/-!
# Texts as UTF-16 units

The value of a string in a script is a sequence of 16-bit units, in which half of a surrogate pair
may stand alone. `units` gives the units of a text, and `ofUnits` the text of a sequence of units; a
unit that is only half of a pair has no character and is written as its escape.
-/

namespace Contracts.Text

/-- The UTF-16 units of a character. -/
def charUnits (c : Char) : List Nat :=
  if c.toNat ≤ 0xFFFF then [c.toNat]
  else
    let n := c.toNat - 0x10000
    [0xD800 + n / 0x400, 0xDC00 + n % 0x400]

def units (cs : List Char) : List Nat :=
  cs.flatMap charUnits

def isHighHalf (u : Nat) : Bool :=
  0xD800 ≤ u && u ≤ 0xDBFF

def isLowHalf (u : Nat) : Bool :=
  0xDC00 ≤ u && u ≤ 0xDFFF

/-- The text of a single unit. -/
def unitText (u : Nat) : List Char :=
  if isHighHalf u || isLowHalf u then '\\' :: 'u' :: hex 4 u else [Char.ofNat u]

def ofUnits : List Nat → List Char
  | [] => []
  | [u] => unitText u
  | u :: v :: us =>
    if isHighHalf u && isLowHalf v then
      Char.ofNat (0x10000 + (u - 0xD800) * 0x400 + (v - 0xDC00)) :: ofUnits us
    else unitText u ++ ofUnits (v :: us)

end Contracts.Text
