import Contracts.Syntax.Fault
import Contracts.Syntax.Token
import Contracts.Text.Quoted

/-!
# Reading one token

`Token.scan` reads the token that a text starts with. What a slash starts, an operator or a regular
expression, and where the text of a template goes on, depends on the grammar: `Token.scan` always
takes a slash for an operator, and the grammar asks for the other reading with `scanRegex` and
`scanChunk`.

Every reader gives back the characters it took and the rest, so that the width of a token is the
width of what was taken.
-/

namespace Contracts

namespace Token

/-- Beyond ASCII every character that is not white space belongs to names. -/
def isNameStart (c : Char) : Bool :=
  c.isAlpha || c == '_' || c == '$' ||
    (0x80 ≤ c.toNat && !isSpace c && !Text.isLineBreak c)

def isNamePart (c : Char) : Bool :=
  isNameStart c || c.isDigit

/-- The operators and other marks, longer ones before those they start with. -/
def punctuators : List String :=
  [">>>=", "...", "===", "!==", "**=", "<<=", ">>=", ">>>", "&&=", "||=", "??=", "=>", "==", "!=",
    "<=", ">=", "&&", "||", "??", "?.", "++", "--", "+=", "-=", "*=", "/=", "%=", "&=", "|=", "^=",
    "<<", ">>", "**", "\x7b", "\x7d", "(", ")", "[", "]", ";", ",", "<", ">", "+", "-", "*", "/",
    "%", "&", "|", "^", "!", "~", "?", ":", "=", ".", "@", "`"]

/-- The longest mark that `cs` starts with. A question mark and a point in front of a digit are two
marks. -/
def punctuator? (cs : List Char) : Option (String × List Char) :=
  punctuators.findSome? fun p =>
    match Text.after? p.toList cs with
    | some rest => if p == "?." && rest.head?.any Char.isDigit then none else some (p, rest)
    | none => none

/-- What is wrong with an escape, given what follows its backslash, and how many characters of it were
read. Escapes in base eight do not belong everywhere. -/
def escapeFault? (allowOctal : Bool) : List Char → Option (Cause × Nat)
  | 'x' :: cs =>
    let n := ((cs.take 2).takeWhile Text.isHexDigit).length
    if n = 2 then none else some (.badEscape "2 hex characters", n + 1)
  | 'u' :: '\x7b' :: cs =>
    let digits := cs.takeWhile Text.isHexDigit
    if digits.isEmpty || 0x10FFFF < Text.hexNumber digits then
      some (.badEscape "1-6 hex characters", digits.length + 2)
    else if (cs.dropWhile Text.isHexDigit).head? == some '\x7d' then none
    else some (.unclosedEscape, digits.length + 2)
  | 'u' :: cs =>
    let n := ((cs.take 4).takeWhile Text.isHexDigit).length
    if n = 4 then none else some (.badEscape "4 hex characters", n + 1)
  | c :: cs =>
    let isOctal := Text.Quoted.isOctalDigit c &&
      (c != '0' || cs.head?.any Text.Quoted.isOctalDigit)
    if isOctal && !allowOctal then some (.octalInStrict, 1) else none
  | [] => none

/-- What is wrong with the first bad escape of a text that starts at `position`. -/
def textFault? (allowOctal : Bool) (position : Nat) : List Char → Option Fault
  | '\\' :: c :: cs =>
    match escapeFault? allowOctal (c :: cs) with
    | some (cause, n) => some ⟨cause, ⟨position, position + n + 1⟩⟩
    | none => textFault? allowOctal (position + 1 + c.utf8Size) cs
  | c :: cs => textFault? allowOctal (position + c.utf8Size) cs
  | [] => none

/-- The character that an escape stands for, given what follows its backslash, and with how many
characters it is written there. -/
def nameEscape? : List Char → Option (Char × Nat)
  | 'u' :: '\x7b' :: cs =>
    let digits := cs.takeWhile Text.isHexDigit
    if (escapeFault? true ('u' :: '\x7b' :: cs)).isSome then none
    else some (Char.ofNat (Text.hexNumber digits), digits.length + 3)
  | 'u' :: cs =>
    if (escapeFault? true ('u' :: cs)).isSome then none
    else some (Char.ofNat (Text.hexNumber (cs.take 4)), 5)
  | _ => none

/-- Whether a name may go on with a character. -/
def continuesName (name : List Char) (c : Char) : Bool :=
  if name.isEmpty then isNameStart c else isNamePart c

/-- A name with its escapes resolved: the name, whether there was an escape, and the rest. The next
`skip` characters belong to an escape. -/
def scanName (name : List Char) (isEscaped : Bool) (skip : Nat) :
    List Char → List Char × Bool × List Char
  | [] => (name.reverse, isEscaped, [])
  | c :: cs =>
    match skip with
    | n + 1 => scanName name isEscaped n cs
    | 0 =>
      if c == '\\' then
        match nameEscape? cs with
        | some (d, n) =>
          if continuesName name d then scanName (d :: name) true n cs
          else (name.reverse, isEscaped, c :: cs)
        | none => (name.reverse, isEscaped, c :: cs)
      else if isNamePart c then scanName (c :: name) isEscaped 0 cs
      else (name.reverse, isEscaped, c :: cs)

/-- A string literal that was read, closed or not, and the text after it. -/
structure ScannedString where
  text : List Char
  isClosed : Bool
  rest : List Char
  deriving DecidableEq, Repr

/-- The characters of a string literal after its opening quote, up to and with the closing one, or up
to the end of the line if there is no closing quote. -/
def scanString (quote : Char) (text : List Char) : List Char → ScannedString
  | [] => ⟨text.reverse, false, []⟩
  | '\\' :: '\r' :: '\n' :: cs => scanString quote ('\n' :: '\r' :: '\\' :: text) cs
  | '\\' :: c :: cs => scanString quote (c :: '\\' :: text) cs
  | c :: cs =>
    if c == quote then ⟨(c :: text).reverse, true, cs⟩
    else if c == '\n' || c == '\r' then ⟨text.reverse, false, c :: cs⟩
    else scanString quote (c :: text) cs

/-- The characters of a regular expression after its opening slash, flags included, and the rest; the
characters up to the end of the line if there is no closing slash. -/
def scanRegexBody (inClass : Bool) (text : List Char) :
    List Char → Except (List Char) (List Char × List Char)
  | [] => .error text.reverse
  | '\\' :: c :: cs =>
    if Text.isLineBreak c then .error ('\\' :: text).reverse
    else scanRegexBody inClass (c :: '\\' :: text) cs
  | c :: cs =>
    if Text.isLineBreak c then .error text.reverse
    else if c == '/' && !inClass then
      .ok ((c :: text).reverse ++ cs.takeWhile isNamePart, cs.dropWhile isNamePart)
    else if c == '[' then scanRegexBody true (c :: text) cs
    else if c == ']' then scanRegexBody false (c :: text) cs
    else scanRegexBody inClass (c :: text) cs

/-- How the text of a template ends: with the template, or with a substitution. -/
inductive ChunkEnd where
  | template
  | substitution
  deriving DecidableEq, Repr

/-- The text of a template up to its end or the next substitution, how it ended, and the rest after
the mark that ended it. -/
def scanChunk (text : List Char) : List Char → Option (List Char × ChunkEnd × List Char)
  | [] => none
  | '\\' :: c :: cs => scanChunk (c :: '\\' :: text) cs
  | '`' :: cs => some (text.reverse, .template, cs)
  | '$' :: '\x7b' :: cs => some (text.reverse, .substitution, cs)
  | c :: cs => scanChunk (c :: text) cs

def isDigitOrBar (c : Char) : Bool :=
  c.isDigit || c == '_'

/-- The digits after the letter of an exponent, with their sign. -/
def scanExponent (cs : List Char) : List Char × List Char :=
  match cs with
  | e :: rest =>
    if e == 'e' || e == 'E' then
      match rest with
      | s :: digits =>
        if (s == '+' || s == '-') && digits.head?.any Char.isDigit then
          (e :: s :: digits.takeWhile isDigitOrBar, digits.dropWhile isDigitOrBar)
        else if s.isDigit then (e :: rest.takeWhile isDigitOrBar, rest.dropWhile isDigitOrBar)
        else ([], cs)
      | [] => ([], cs)
    else ([], cs)
  | [] => ([], [])

/-- The point and the digits after it. -/
def scanFraction (cs : List Char) : List Char × List Char :=
  match cs with
  | '.' :: rest => ('.' :: rest.takeWhile isDigitOrBar, rest.dropWhile isDigitOrBar)
  | _ => ([], cs)

/-- A number that is written with its base, such as `0x1F`. -/
def hasBase (cs : List Char) : Bool :=
  match cs with
  | '0' :: b :: _ => ['x', 'X', 'o', 'O', 'b', 'B'].contains b
  | _ => false

/-- The characters of a number and the rest. -/
def scanNumber (cs : List Char) : List Char × List Char :=
  if hasBase cs then
    let digits := cs.drop 2
    let isPart := fun c => Text.isHexDigit c || c == '_'
    (cs.take 2 ++ digits.takeWhile isPart, digits.dropWhile isPart)
  else
    let whole := cs.takeWhile isDigitOrBar
    let fraction := scanFraction (cs.dropWhile isDigitOrBar)
    let power := scanExponent fraction.2
    (whole ++ fraction.1 ++ power.1, power.2)

def width (cs : List Char) : Nat :=
  Text.byteLength cs

/-- A token that was read, the text after it, and what was wrong with it if reading can go on. -/
structure Scanned where
  token : Token
  rest : List Char
  minor : Option Fault
  deriving DecidableEq, Repr

/-- The token that `cs` starts with. -/
def scan (position : Nat) (afterBreak : Bool) (cs : List Char) : Except Fault Scanned :=
  let make (kind : TokenKind) (taken : Nat) (rest : List Char) : Except Fault Scanned :=
    .ok ⟨⟨kind, ⟨position, position + taken⟩, afterBreak⟩, rest, none⟩
  match cs with
  | [] => make .endOfFile 0 []
  | c :: tail =>
    if c.isDigit || (c == '.' && tail.head?.any Char.isDigit) then
      let (digits, rest) := scanNumber cs
      match rest with
      | 'n' :: rest => make (.bigint (String.ofList (digits ++ ['n']))) (digits.length + 1) rest
      | _ => make (.number (String.ofList digits)) digits.length rest
    else if isNameStart c || c == '\\' then
      let (name, isEscaped, rest) := scanName [] false 0 cs
      if name.isEmpty then .error ⟨.unexpectedCharacter c, ⟨position, position + c.utf8Size⟩⟩
      else
        let taken := if isEscaped then width cs - width rest else width name
        make (.word (String.ofList name) isEscaped) taken rest
    else if c == '#' then
      let (name, isEscaped, rest) := scanName [] false 0 tail
      let taken := if isEscaped then width cs - width rest else width name + 1
      make (.privateName (String.ofList name)) taken rest
    else if c == '"' || c == '\'' then
      let s := scanString c [c] tail
      let place : Span := ⟨position, position + width s.text⟩
      let minor := if s.isClosed then none else some ⟨.unterminatedString, place⟩
      match textFault? true position s.text with
      | some fault => .error fault
      | none => .ok ⟨⟨.string (String.ofList s.text), place, afterBreak⟩, s.rest, minor⟩
    else
      match punctuator? cs with
      | some (p, rest) => make (.punctuator p) p.length rest
      | none => .error ⟨.unexpectedCharacter c, ⟨position, position + c.utf8Size⟩⟩

/-- The regular expression that starts with the slash at `position`. -/
def scanRegex (position : Nat) (afterBreak : Bool) (tail : List Char) :
    Except Fault (Token × List Char) :=
  match scanRegexBody false ['/'] tail with
  | .ok (text, rest) =>
    .ok (⟨.regex (String.ofList text), ⟨position, position + width text⟩, afterBreak⟩, rest)
  | .error text => .error ⟨.unterminatedRegex, ⟨position, position + width text⟩⟩

end Token

end Contracts
