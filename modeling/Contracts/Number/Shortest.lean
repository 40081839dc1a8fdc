/-!
# The fewest digits of a number

A finite positive 64-bit float is `m * 2 ^ q` for natural `m`. The reals that round to it form an
interval around it, whose ends belong to it when `m` is even. `Shortest.digits` finds the decimal
with the fewest digits in that interval: for one, two, up to seventeen digits it tries the two
neighbours of the value on that decimal grid, in exact arithmetic on natural numbers, and takes the
nearer of those that lie in the interval.

The two ways in which this library writes such a decimal out are `positional`, which never uses an
exponent, and `scientific`, the usual form of numbers in data files.
-/

namespace Contracts.Number

/-- A decimal `digits * 10 ^ exponent`. -/
structure Decimal where
  digits : Nat
  exponent : Int
  deriving DecidableEq, Repr

/-- A ratio of two natural numbers. -/
structure Ratio where
  num : Nat
  den : Nat

namespace Ratio

def ble (a b : Ratio) : Bool :=
  a.num * b.den ≤ b.num * a.den

def blt (a b : Ratio) : Bool :=
  a.num * b.den < b.num * a.den

/-- The ratio `n * base ^ e`. -/
def scaled (n base : Nat) (e : Int) : Ratio :=
  if 0 ≤ e then ⟨n * base.pow e.toNat, 1⟩ else ⟨n, base.pow (-e).toNat⟩

/-- How often a power of ten can be taken out: the `p` with `10 ^ (p - 1) ≤ r < 10 ^ p`. -/
def magnitude (r : Ratio) : Int :=
  if r.den ≤ r.num then ((Nat.toDigits 10 (r.num / r.den)).length : Int)
  else
    let zeros := (List.range 400).find? fun j => r.den ≤ r.num * Nat.pow 10 (j + 1)
    0 - (zeros.getD 400 : Int)

end Ratio

/-- The bit in front of the fraction of a float that is not tiny. -/
def leadingBit : Nat := 0x10000000000000

namespace Shortest

/-- The interval of reals that round to `m * 2 ^ q`: its two ends and whether they belong to it.
Below a power of two the neighbour is only half as far away. -/
def bounds (m : Nat) (q : Int) : Ratio × Ratio × Bool :=
  let below := if m = leadingBit && -1074 < q then 1 else 2
  (Ratio.scaled (4 * m - below) 2 (q - 2), Ratio.scaled (4 * m + 2) 2 (q - 2), m % 2 = 0)

/-- The nearer of the two neighbours of `v` with `n` digits, of those in the interval. -/
def candidate (v low high : Ratio) (closed : Bool) (magnitude : Int) (n : Nat) : Option Decimal :=
  let e := magnitude - n
  let unit := Ratio.scaled 1 10 e
  let floor := v.num * unit.den / (v.den * unit.num)
  let inside (d : Nat) : Bool :=
    let r := Ratio.scaled d 10 e
    if closed then low.ble r && r.ble high else low.blt r && r.blt high
  -- Twice the distance of the value from the lower neighbour, in units of the grid.
  let excess : Ratio := ⟨2 * (v.num * unit.den - floor * (v.den * unit.num)), v.den * unit.num⟩
  let nearUp := excess.den < excess.num || (excess.den = excess.num && floor % 2 = 1)
  if nearUp && inside (floor + 1) then some ⟨floor + 1, e⟩
  else if inside floor && floor ≠ 0 then some ⟨floor, e⟩
  else if inside (floor + 1) then some ⟨floor + 1, e⟩
  else none

/-- Take the zeros at the end of the digits into the exponent. -/
def normalize : Nat → Decimal → Decimal
  | 0, d => d
  | n + 1, d =>
    if d.digits ≠ 0 && d.digits % 10 = 0 then normalize n ⟨d.digits / 10, d.exponent + 1⟩ else d

/-- The shortest decimal that rounds to `m * 2 ^ q`. -/
def digits (m : Nat) (q : Int) : Decimal :=
  if m = 0 then ⟨0, 0⟩
  else
    let v := Ratio.scaled m 2 q
    let (low, high, closed) := bounds m q
    let p := v.magnitude
    match (List.range 17).findSome? fun n => candidate v low high closed p (n + 1) with
    | some d => normalize 20 d
    | none => ⟨m, q⟩

end Shortest

/-- The natural number `m` and the exponent `q` of a float that is `m * 2 ^ q` up to its sign. -/
def mantissaExponent (x : Float) : Nat × Int :=
  let bits := x.toBits.toNat
  let fraction := bits % leadingBit
  let power : Nat := bits / leadingBit % 0x800
  if power = 0 then (fraction, -1074) else (fraction + leadingBit, Int.ofNat power - 1075)

/-- The shortest decimal that reads back as the float `x`, up to its sign. -/
def shortest (x : Float) : Decimal :=
  let (m, q) := mantissaExponent x
  Shortest.digits m q

namespace Decimal

/-- All digits written out, with a point only where there are digits after it. -/
def positional (d : Decimal) : String :=
  let ds := Nat.toDigits 10 d.digits
  if 0 ≤ d.exponent then String.ofList (ds ++ List.replicate d.exponent.toNat '0')
  else
    let places := (-d.exponent).toNat
    let padded := List.replicate (places + 1 - ds.length) '0' ++ ds
    let whole := padded.length - places
    String.ofList (padded.take whole ++ '.' :: padded.drop whole)

/-- The form of numbers in data files: at least one digit after a point as long as the first digit
stands at most sixteen places before the point and at most five after it, otherwise one digit before
the point and an exponent. -/
def scientific (d : Decimal) : String :=
  let ds := Nat.toDigits 10 d.digits
  let point : Int := d.exponent + ds.length
  if d.digits = 0 then "0.0"
  else if 0 ≤ d.exponent && point ≤ 16 then d.positional ++ ".0"
  else if -5 < point && point ≤ 16 then d.positional
  else
    let head := if ds.length = 1 then ds else ds.take 1 ++ '.' :: ds.drop 1
    String.ofList head ++ "e" ++ toString (point - 1)

end Decimal

/-- A float without an exponent: the fewest digits that read back. -/
def display (x : Float) : String :=
  (if x.toBits < 0x8000000000000000 then "" else "-") ++ (shortest x).positional

end Contracts.Number
