import Contracts.Json.Value
import Contracts.Number.Numeral
import Contracts.Text.Escaped
import Contracts.Text.Units

/-!
# Reading JSON

A reader goes over a text once, from left to right, and stops at the first thing that is wrong. It
keeps count of the line and of the bytes since the start of the line, because errors are placed by
these two numbers. An error is placed either right after what was taken, or one byte further, on the
character that does not fit.

Strings are read with all their escapes. `skipValue` steps over a value without keeping it; the
nesting of a value is bounded by its length only.
-/

namespace Contracts

inductive JsonFault where
  | endInList
  | endInObject
  | endInString
  | endInValue
  | colonExpected
  | listEndExpected
  | objectEndExpected
  | wordExpected
  | valueExpected
  | invalidEscape
  | invalidNumber
  | numberOutOfRange
  | controlCharacter
  | keyExpected
  | loneSurrogate
  | unfinishedEscape
  | trailingComma
  | trailingCharacters
  /-- A value of another type than the one wanted. -/
  | invalidType (found wanted : String)
  | duplicateField (name : String)
  deriving DecidableEq, Repr

/-- Whether the text ended too early, is no JSON, or is JSON of the wrong type. -/
inductive JsonErrorKind where
  | ended
  | malformed
  | mistyped
  deriving DecidableEq, Repr

namespace JsonFault

def kind : JsonFault → JsonErrorKind
  | .endInList | .endInObject | .endInString | .endInValue => .ended
  | .invalidType _ _ | .duplicateField _ => .mistyped
  | _ => .malformed

def text : JsonFault → String
  | .endInList => "EOF while parsing a list"
  | .endInObject => "EOF while parsing an object"
  | .endInString => "EOF while parsing a string"
  | .endInValue => "EOF while parsing a value"
  | .colonExpected => "expected `:`"
  | .listEndExpected => "expected `,` or `]`"
  | .objectEndExpected => "expected `,` or `\x7d`"
  | .wordExpected => "expected ident"
  | .valueExpected => "expected value"
  | .invalidEscape => "invalid escape"
  | .invalidNumber => "invalid number"
  | .numberOutOfRange => "number out of range"
  | .controlCharacter => "control character (\\u0000-\\u001F) found while parsing a string"
  | .keyExpected => "key must be a string"
  | .loneSurrogate => "lone leading surrogate in hex escape"
  | .unfinishedEscape => "unexpected end of hex escape"
  | .trailingComma => "trailing comma"
  | .trailingCharacters => "trailing characters"
  | .invalidType found wanted => "invalid type: " ++ found ++ ", expected " ++ wanted
  | .duplicateField name => "duplicate field `" ++ name ++ "`"

end JsonFault

structure JsonError where
  fault : JsonFault
  line : Nat
  column : Nat
  deriving DecidableEq, Repr

def JsonError.message (e : JsonError) : String :=
  e.fault.text ++ " at line " ++ toString e.line ++ " column " ++ toString e.column

/-- The text that is left, the current line counted from one, and the bytes taken of it. -/
structure JsonCursor where
  rest : List Char
  line : Nat
  column : Nat
  deriving DecidableEq, Repr

abbrev JsonReader := StateT JsonCursor (Except JsonError)

namespace JsonReader

/-- Fail right after what was taken. -/
def fail {α : Type} (fault : JsonFault) : JsonReader α := do
  let c ← get
  throw ⟨fault, c.line, c.column⟩

/-- Fail on the next byte, or at the end if there is none. -/
def failNext {α : Type} (fault : JsonFault) : JsonReader α := do
  let c ← get
  match c.rest with
  | [] => throw ⟨fault, c.line, c.column⟩
  | '\n' :: _ => throw ⟨fault, c.line + 1, 0⟩
  | _ => throw ⟨fault, c.line, c.column + 1⟩

def peek : JsonReader (Option Char) :=
  return (← get).rest.head?

/-- The cursor after one character. -/
def stepOver (c : JsonCursor) : JsonCursor :=
  match c.rest with
  | [] => c
  | '\n' :: cs => ⟨cs, c.line + 1, 0⟩
  | d :: cs => ⟨cs, c.line, c.column + d.utf8Size⟩

def take : JsonReader Unit :=
  modify stepOver

/-- Take the next character, if there is one. -/
def next : JsonReader (Option Char) := do
  let c ← peek
  take
  return c

def isBlank (c : Char) : Bool :=
  c == ' ' || c == '\n' || c == '\t' || c == '\r'

/-- The cursor after the characters in front that are in a class; one step per character. -/
def dropFront (p : Char → Bool) : Nat → JsonCursor → JsonCursor
  | 0, c => c
  | n + 1, c => if c.rest.head?.any p then dropFront p n (stepOver c) else c

def takeWhile (p : Char → Bool) : JsonReader Unit :=
  modify fun c => dropFront p c.rest.length c

/-- Skip blanks and look at what follows. -/
def peekAfterBlanks : JsonReader (Option Char) := do
  takeWhile isBlank
  peek

/-- Take the rest of a word. -/
def word : List Char → JsonReader Unit
  | [] => return ()
  | expected :: rest => do
    match ← next with
    | none => fail .endInValue
    | some c => if c = expected then word rest else fail .wordExpected

/-- Four hexadecimal digits; everything is taken if fewer than four bytes are left. -/
def fourDigits : JsonReader Nat := do
  let c ← get
  if Text.byteLength (c.rest.take 4) < 4 then
    set (dropFront (fun _ => true) c.rest.length c)
    fail .endInString
  else
    let digits := c.rest.take 4
    set (dropFront (fun _ => true) 4 c)
    if digits.all Text.isHexDigit then return Text.hexNumber digits else fail .invalidEscape

/-- The characters that stand for themselves after a backslash, and what they denote. -/
def simpleEscape? (c : Char) : Option Char :=
  if c = '"' || c = '\\' || c = '/' then some c
  else if c = 'b' then some '\x08'
  else if c = 'f' then some '\x0c'
  else if c = 'n' then some '\n'
  else if c = 'r' then some '\r'
  else if c = 't' then some '\t'
  else none

/-- Take the character `expected` of the second half of a surrogate pair. -/
def pairMark (expected : Char) : JsonReader Unit := do
  match ← peek with
  | none => fail .endInString
  | some c =>
    take
    if c = expected then return () else fail .unfinishedEscape

/-- The character that an escape with digits denotes, after its `u`. -/
def digitEscape : JsonReader Char := do
  let n ← fourDigits
  if Text.isLowHalf n then fail .loneSurrogate
  else if Text.isHighHalf n then
    pairMark '\\'
    pairMark 'u'
    let m ← fourDigits
    if Text.isLowHalf m then
      return Char.ofNat (0x10000 + (n - 0xD800) * 0x400 + (m - 0xDC00))
    else fail .loneSurrogate
  else return Char.ofNat n

/-- The character that an escape denotes, after its backslash. -/
def escape : JsonReader Char := do
  match ← next with
  | none => fail .endInString
  | some 'u' => digitEscape
  | some c =>
    match simpleEscape? c with
    | some d => return d
    | none => fail .invalidEscape

/-- The rest of a string after its opening quote; `read` holds the characters so far backwards. -/
def stringWithin (read : List Char) : Nat → JsonReader String
  | 0 => fail .endInString
  | n + 1 => do
    match ← peek with
    | none => fail .endInString
    | some c =>
      take
      if c = '"' then return String.ofList read.reverse
      else if c = '\\' then
        let d ← escape
        stringWithin (d :: read) n
      else if c.toNat < 0x20 then fail .controlCharacter
      else stringWithin (c :: read) n

/-- The rest of a string after its opening quote. -/
def stringRest : JsonReader String := do
  stringWithin [] ((← get).rest.length + 1)

/-- Step over an escape after its backslash; halves of surrogate pairs need not be paired. -/
def skipEscape : JsonReader Unit := do
  match ← next with
  | none => fail .endInString
  | some 'u' =>
    let _ ← fourDigits
    return ()
  | some c => if (simpleEscape? c).isSome then return () else fail .invalidEscape

def skipStringWithin : Nat → JsonReader Unit
  | 0 => fail .endInString
  | n + 1 => do
    match ← peek with
    | none => fail .endInString
    | some c =>
      if c = '"' then take
      else if c = '\\' then
        take
        skipEscape
        skipStringWithin n
      else if c.toNat < 0x20 then fail .controlCharacter
      else
        take
        skipStringWithin n

/-- Step over the rest of a string after its opening quote. -/
def skipString : JsonReader Unit := do
  skipStringWithin ((← get).rest.length + 1)

def isAtDigit : JsonReader Bool :=
  return (← peek).any Char.isDigit

/-- Step over the exponent of a number. -/
def skipExponent : JsonReader Unit := do
  take
  if (← peek).any fun c => c == '+' || c == '-' then take
  match ← next with
  | some c => if c.isDigit then takeWhile Char.isDigit else fail .invalidNumber
  | none => fail .invalidNumber

def isExponentMark (c : Char) : Bool :=
  c == 'e' || c == 'E'

/-- Step over the digits after the point of a number. -/
def skipFraction : JsonReader Unit := do
  take
  if ← isAtDigit then
    takeWhile Char.isDigit
    if (← peek).any isExponentMark then skipExponent
  else failNext .invalidNumber

/-- Step over a number without its sign. -/
def skipNumber : JsonReader Unit := do
  match ← next with
  | none => fail .invalidNumber
  | some c =>
    if c = '0' then
      if ← isAtDigit then failNext .invalidNumber
    else if c.isDigit then takeWhile Char.isDigit
    else fail .invalidNumber
    match ← peek with
    | some '.' => skipFraction
    | some d => if isExponentMark d then skipExponent
    | none => return ()

/-- Where in a value that is stepped over the reader is. -/
inductive Place where
  | value
  | elements (isFirst : Bool)
  | members (isFirst : Bool)
  deriving DecidableEq, Repr

/-- Step over the key of a member and the colon. -/
def skipKey : JsonReader Unit := do
  match ← peekAfterBlanks with
  | none => fail .endInObject
  | some '"' =>
    take
    skipString
    match ← peekAfterBlanks with
    | some ':' => take
    | some _ => failNext .colonExpected
    | none => fail .endInObject
  | some _ => failNext .keyExpected

/-- Step over what stands at a place, up to its end. -/
def skipWithin : Nat → Place → JsonReader Unit
  | 0, _ => fail .endInValue
  | n + 1, .value => do
    match ← peekAfterBlanks with
    | none => fail .endInValue
    | some 'n' => take; word ['u', 'l', 'l']
    | some 't' => take; word ['r', 'u', 'e']
    | some 'f' => take; word ['a', 'l', 's', 'e']
    | some '-' => take; skipNumber
    | some '"' => take; skipString
    | some '[' => take; skipWithin n (.elements true)
    | some '\x7b' => take; skipWithin n (.members true)
    | some c => if c.isDigit then skipNumber else failNext .valueExpected
  | n + 1, .elements isFirst => do
    match ← peekAfterBlanks with
    | none => fail .endInList
    | some ']' => take
    | some c =>
      if isFirst then
        skipWithin n .value
        skipWithin n (.elements false)
      else if c = ',' then
        take
        skipWithin n .value
        skipWithin n (.elements false)
      else failNext .listEndExpected
  | n + 1, .members isFirst => do
    match ← peekAfterBlanks with
    | none => fail .endInObject
    | some '\x7d' => take
    | some c =>
      if isFirst then
        skipKey
        skipWithin n .value
        skipWithin n (.members false)
      else if c = ',' then
        take
        skipKey
        skipWithin n .value
        skipWithin n (.members false)
      else failNext .objectEndExpected

/-- Step over a value. -/
def skipValue : JsonReader Unit := do
  skipWithin (2 * (← get).rest.length + 2) .value

/-- The digits of a number's exponent with its sign, after the mark. -/
def readExponent : JsonReader Unit := do
  take
  if (← peek).any fun c => c == '+' || c == '-' then take
  match ← next with
  | some c => if c.isDigit then takeWhile Char.isDigit else fail .invalidNumber
  | none => fail .endInValue

/-- Read a number, its sign taken already, and say how it is named when it is not wanted. -/
def describeNumber (isNegative : Bool) : JsonReader String := do
  let before := (← get).rest
  match ← next with
  | none => fail .endInValue
  | some c =>
    if c = '0' then
      if ← isAtDigit then failNext .invalidNumber
    else if c.isDigit then takeWhile Char.isDigit
    else fail .invalidNumber
    let isWhole ← do
      match ← peek with
      | some '.' =>
        take
        if ← isAtDigit then
          takeWhile Char.isDigit
          if (← peek).any isExponentMark then readExponent
          pure false
        else if (← peek).isSome then failNext .invalidNumber
        else fail .endInValue
      | some d =>
        if isExponentMark d then
          readExponent
          pure false
        else pure true
      | none => pure true
    let digits := before.take (before.length - (← get).rest.length)
    let d := Number.decimalOf digits
    let sign := if isNegative then "-" else ""
    let most := if isNegative then 0x8000000000000000 else 0xFFFFFFFFFFFFFFFF
    if isWhole && d.digits ≤ most && !(isNegative && d.digits = 0) then
      return "integer `" ++ sign ++ String.ofList digits ++ "`"
    else
      let x := d.toFloat
      if x.isInf then fail .numberOutOfRange
      else return "floating point `" ++ sign ++ (Number.shortest x).scientific ++ "`"

/-- Fail because the value that comes next is not of the type that is wanted. -/
def mistyped {α : Type} (wanted : String) : JsonReader α := do
  match ← peek with
  | some 'n' =>
    take
    word ['u', 'l', 'l']
    fail (.invalidType "null" wanted)
  | some 't' =>
    take
    word ['r', 'u', 'e']
    fail (.invalidType "boolean `true`" wanted)
  | some 'f' =>
    take
    word ['a', 'l', 's', 'e']
    fail (.invalidType "boolean `false`" wanted)
  | some '-' =>
    take
    let found ← describeNumber true
    fail (.invalidType found wanted)
  | some '"' =>
    take
    let s ← stringRest
    fail (.invalidType ("string " ++ Text.escaped s) wanted)
  | some '[' => fail (.invalidType "sequence" wanted)
  | some '\x7b' => fail (.invalidType "map" wanted)
  | some c =>
    if c.isDigit then
      let found ← describeNumber false
      fail (.invalidType found wanted)
    else failNext .valueExpected
  | none => failNext .valueExpected

/-- Read a string. -/
def string : JsonReader String := do
  match ← peekAfterBlanks with
  | none => fail .endInValue
  | some '"' =>
    take
    stringRest
  | some _ => mistyped "a string"

/-- Read a string or `null`. -/
def optionalString : JsonReader (Option String) := do
  match ← peekAfterBlanks with
  | some 'n' =>
    take
    word ['u', 'l', 'l']
    return none
  | _ => return some (← string)

/-- Read `true` or `false`. -/
def boolean : JsonReader Bool := do
  match ← peekAfterBlanks with
  | none => fail .endInValue
  | some 't' =>
    take
    word ['r', 'u', 'e']
    return true
  | some 'f' =>
    take
    word ['a', 'l', 's', 'e']
    return false
  | some _ => mistyped "a boolean"

/-- Read the colon after a key. -/
def colon : JsonReader Unit := do
  match ← peekAfterBlanks with
  | some ':' => take
  | some _ => failNext .colonExpected
  | none => fail .endInObject

/-- Read the next key of an object, or find that the object ends. -/
def nextKey? (isFirst : Bool) : JsonReader (Option String) := do
  match ← peekAfterBlanks with
  | none => fail .endInObject
  | some '\x7d' => return none
  | some c =>
    let found ←
      if isFirst then pure (some c)
      else if c = ',' then
        take
        peekAfterBlanks
      else failNext .objectEndExpected
    match found with
    | some '"' =>
      take
      return some (← stringRest)
    | some '\x7d' => failNext .trailingComma
    | some _ => failNext .keyExpected
    | none => fail .endInValue

/-- Whether another element of a list comes, which is then next. -/
def hasElement (isFirst : Bool) : JsonReader Bool := do
  match ← peekAfterBlanks with
  | none => fail .endInList
  | some ']' => return false
  | some c =>
    let found ←
      if isFirst then pure (some c)
      else if c = ',' then
        take
        peekAfterBlanks
      else failNext .listEndExpected
    match found with
    | some ']' => failNext .trailingComma
    | some _ => return true
    | none => fail .endInValue

/-- Take the end of an object. -/
def endObject : JsonReader Unit := do
  match ← peekAfterBlanks with
  | some '\x7d' => take
  | some ',' => failNext .trailingComma
  | some _ => failNext .trailingCharacters
  | none => fail .endInObject

/-- Take the end of a list. -/
def endList : JsonReader Unit := do
  match ← peekAfterBlanks with
  | some ']' => take
  | some ',' =>
    take
    match ← peekAfterBlanks with
    | some ']' => failNext .trailingComma
    | _ => failNext .trailingCharacters
  | some _ => failNext .trailingCharacters
  | none => fail .endInList

/-- Nothing but blanks may follow. -/
def endText : JsonReader Unit := do
  match ← peekAfterBlanks with
  | some _ => failNext .trailingCharacters
  | none => return ()

/-- Read a whole text. -/
def ofText {α : Type} (r : JsonReader α) (text : String) : Except JsonError α :=
  let whole : JsonReader α := do
    let a ← r
    endText
    return a
  (StateT.run whole ⟨text.toList, 1, 0⟩).map Prod.fst

end JsonReader

end Contracts
