import Contracts.Text.Units

/-!
# String literals

`Quoted.encode` writes a text as a string literal and `Quoted.decode?` reads a string literal by the
rules of the script language, giving the UTF-16 units that it denotes.

Double quotes are used unless the text has more of them than of single quotes. A backslash is
doubled, except in front of the `u` of something that already reads as the escape of half a surrogate
pair: that is left as it is.
-/

namespace Contracts.Text.Quoted

/-- The quote that costs fewer escapes; on a tie the double quote. -/
def quoteFor (cs : List Char) : Char :=
  if cs.count '\'' < cs.count '"' then '\'' else '"'

/-- Whether the four characters in front are hexadecimal digits of half a surrogate pair. -/
def startsWithHalf (cs : List Char) : Bool :=
  let digits := cs.take 4
  digits.length = 4 && digits.all isHexDigit &&
    0xD800 ≤ hexNumber digits && hexNumber digits ≤ 0xDFFF

/-- Whether what follows a backslash makes it the escape of half a surrogate pair. -/
def isHalfEscape : List Char → Bool
  | 'u' :: '\x7b' :: cs => startsWithHalf cs
  | 'u' :: cs => startsWithHalf cs
  | _ => false

/-- How a character is written; `rest` is the text after it. -/
def escape (quote c : Char) (rest : List Char) : List Char :=
  if c = quote then ['\\', c]
  else if c = '\\' then if isHalfEscape rest then ['\\'] else ['\\', '\\']
  else if c = '\x08' then ['\\', 'b']
  else if c = '\x0c' then ['\\', 'f']
  else if c = '\n' then ['\\', 'n']
  else if c = '\r' then ['\\', 'r']
  else if c = '\x0b' then ['\\', 'v']
  else if c = '\t' then ['\t']
  else if c = '\x00' then
    if rest.head?.any Char.isDigit then ['\\', 'x', '0', '0'] else ['\\', '0']
  else if c.toNat < 0x20 then '\\' :: 'x' :: hex 2 c.toNat
  else if c = '\u2028' then "\\u2028".toList
  else if c = '\u2029' then "\\u2029".toList
  else if c = '\ufeff' then "\\uFEFF".toList
  else [c]

def encodeFrom (quote : Char) : List Char → List Char
  | [] => []
  | c :: cs => escape quote c cs ++ encodeFrom quote cs

/-- The string literal for a text, quotes included. -/
def encode (cs : List Char) : List Char :=
  let quote := quoteFor cs
  quote :: encodeFrom quote cs ++ [quote]

def isOctalDigit (c : Char) : Bool :=
  '0' ≤ c && c ≤ '7'

/-- How many digits an escape in base eight has: three if the first is at most three. -/
def octalLength (cs : List Char) : Nat :=
  let most := if cs.head?.any (· ≤ '3') then 3 else 2
  ((cs.take most).takeWhile isOctalDigit).length

/-- The units that an escape denotes, given what follows its backslash, and the text after it. -/
def unescape? : List Char → Option (List Nat × List Char)
  | [] => none
  | 'u' :: '\x7b' :: cs =>
    let digits := cs.takeWhile isHexDigit
    match cs.dropWhile isHexDigit with
    | '\x7d' :: rest =>
      let n := hexNumber digits
      if digits.isEmpty || 0x10FFFF < n then none
      else if n ≤ 0xFFFF then some ([n], rest)
      else some (charUnits (Char.ofNat n), rest)
    | _ => none
  | 'u' :: a :: b :: c :: d :: rest =>
    if [a, b, c, d].all isHexDigit then some ([hexNumber [a, b, c, d]], rest) else none
  | 'x' :: a :: b :: rest =>
    if [a, b].all isHexDigit then some ([hexNumber [a, b]], rest) else none
  | '\r' :: '\n' :: rest => some ([], rest)
  | c :: rest =>
    if isLineBreak c then some ([], rest)
    else if isOctalDigit c then
      let k := octalLength (c :: rest)
      some ([((c :: rest).take k).foldl (fun n d => n * 8 + hexValue d) 0], (c :: rest).drop k)
    else if c = 'b' then some ([8], rest)
    else if c = 't' then some ([9], rest)
    else if c = 'n' then some ([10], rest)
    else if c = 'v' then some ([11], rest)
    else if c = 'f' then some ([12], rest)
    else if c = 'r' then some ([13], rest)
    else if c = 'u' || c = 'x' then none
    else some (charUnits c, rest)

/-- Read the characters after the opening quote, which must end with the closing one. The number of
steps is at most the number of characters. -/
def decodeWithin (quote : Char) : Nat → List Char → Option (List Nat)
  | 0, _ => none
  | _ + 1, [] => none
  | n + 1, c :: cs =>
    if c = quote then if cs.isEmpty then some [] else none
    else if c = '\\' then
      match unescape? cs with
      | some (us, rest) => (decodeWithin quote n rest).map (us ++ ·)
      | none => none
    else if c = '\n' || c = '\r' then none
    else (decodeWithin quote n cs).map (charUnits c ++ ·)

/-- The units that a string literal denotes. -/
def decode? : List Char → Option (List Nat)
  | '"' :: cs => decodeWithin '"' cs.length cs
  | '\'' :: cs => decodeWithin '\'' cs.length cs
  | _ => none

/-- The text that a string literal denotes. -/
def value (literal : String) : String :=
  String.ofList (ofUnits ((decode? literal.toList).getD []))

end Contracts.Text.Quoted
