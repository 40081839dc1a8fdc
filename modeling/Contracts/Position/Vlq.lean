/-!
# Numbers in source maps

A number is written in groups of five bits, the lowest first, each group a letter of a fixed
alphabet of sixty-four; all but the last group have the sixth bit set. The lowest bit of the whole
is the sign. `encode` writes a number and `decode?` reads one from the start of a text.
-/

namespace Contracts.Vlq

def alphabet : List Char :=
  "ABCDEFGHIJKLMNOPQRSTUVWXYZabcdefghijklmnopqrstuvwxyz0123456789+/".toList

def letter (n : Nat) : Char :=
  (alphabet[n]?).getD 'A'

/-- The groups of a natural number. -/
def groups (n : Nat) : List Nat :=
  if n < 32 then [n] else (n % 32 + 32) :: groups (n / 32)
  termination_by n
  decreasing_by omega

/-- The sign as the lowest bit. -/
def ofSigned : Int → Nat
  | .ofNat n => 2 * n
  | .negSucc n => 2 * (n + 1) + 1

def toSigned (n : Nat) : Int :=
  if n % 2 = 0 then (n / 2 : Nat) else -((n / 2 : Nat) : Int)

def encode (i : Int) : List Char :=
  (groups (ofSigned i)).map letter

/-- The number that starts a list of groups, and the groups after it. -/
def ungroup? : List Nat → Option (Nat × List Nat)
  | [] => none
  | g :: gs =>
    if g < 32 then some (g, gs)
    else (ungroup? gs).map fun (n, rest) => (g - 32 + 32 * n, rest)

/-- The numbers that a list of groups writes. -/
def ungroupAll : Nat → List Nat → Option (List Nat)
  | _, [] => some []
  | 0, _ :: _ => none
  | n + 1, g :: gs =>
    match ungroup? (g :: gs) with
    | some (first, rest) => (ungroupAll n rest).map (first :: ·)
    | none => none

/-- The numbers that a text writes, if it writes any. -/
def decode? (cs : List Char) : Option (List Int) := do
  let groups ← cs.mapM fun c => alphabet.idxOf? c
  return (← ungroupAll groups.length groups).map toSigned

end Contracts.Vlq
