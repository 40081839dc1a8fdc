import Contracts.Number.Shortest
import Contracts.Text.Basic

/-!
# The value of a written number

A number in a script is written in base ten, possibly with a point and an exponent, or with its base
in front. Bars between digits do not count.
-/

namespace Contracts.Number

/-- The number that digits of a base up to sixteen write. -/
def ofDigits (base : Nat) (cs : List Char) : Nat :=
  cs.foldl (fun n c => n * base + Text.hexValue c) 0

/-- The value of an exponent's text, sign included. -/
def exponentValue : List Char → Int
  | '-' :: cs => -(ofDigits 10 cs : Int)
  | '+' :: cs => ofDigits 10 cs
  | cs => ofDigits 10 cs

/-- The base that the first two characters name. -/
def baseOf : List Char → Option Nat
  | ['0', c] =>
    if c == 'x' || c == 'X' then some 16
    else if c == 'o' || c == 'O' then some 8
    else if c == 'b' || c == 'B' then some 2
    else none
  | _ => none

/-- Whether a number that starts with a zero is written in base eight. -/
def isOctal : List Char → Bool
  | '0' :: c :: cs => (c :: cs).all fun d => '0' ≤ d && d ≤ '7'
  | _ => false

/-- The exact decimal that a number in base ten writes. -/
def decimalOf (cs : List Char) : Decimal :=
  let isMark := fun c => c == 'e' || c == 'E'
  let mantissa := cs.takeWhile fun c => !isMark c
  let power := exponentValue ((cs.dropWhile fun c => !isMark c).drop 1)
  let whole := mantissa.takeWhile (· != '.')
  let fraction := (mantissa.dropWhile (· != '.')).drop 1
  ⟨ofDigits 10 (whole ++ fraction), power - fraction.length⟩

/-- The float nearest to a decimal. -/
def Decimal.toFloat (d : Decimal) : Float :=
  if 0 ≤ d.exponent then Float.ofScientific d.digits false d.exponent.toNat
  else Float.ofScientific d.digits true (-d.exponent).toNat

/-- The value of a number as it is written in a script. -/
def value (text : String) : Float :=
  let cs := text.toList.filter (· != '_')
  match baseOf (cs.take 2) with
  | some base => Float.ofScientific (ofDigits base (cs.drop 2)) false 0
  | none =>
    if isOctal cs then Float.ofScientific (ofDigits 8 cs) false 0 else (decimalOf cs).toFloat

/-- The value of a whole number with an `n` behind it. -/
def wholeValue (text : String) : Nat :=
  let cs := (text.toList.filter (· != '_')).dropLast
  match baseOf (cs.take 2) with
  | some base => ofDigits base (cs.drop 2)
  | none => ofDigits 10 cs

/-- The value of a number that may have a minus sign in front. -/
def signedValue (text : String) : Float :=
  match text.toList with
  | '-' :: cs => -(decimalOf cs).toFloat
  | cs => (decimalOf cs).toFloat

end Contracts.Number
