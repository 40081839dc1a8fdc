import Contracts.Syntax.Source

/-!
# Diagnostics

What is told about a place in a file: a headline, and the file with the line and the column of the
place, counted from one and in characters. The place is given by bytes, and the characters of the
file before it are counted; an offset that cuts a character is taken as it is.

Lines end at all characters that end a line in any common system, and at a carriage return with a
line feed only once. An end of line at the very end of the file starts no new line.
-/

namespace Contracts.Diagnostic

inductive Severity where
  | error
  | warning
  deriving DecidableEq, Repr

def Severity.label : Severity → String
  | .error => "Error"
  | .warning => "Warning"

/-- The number of characters before a byte offset. -/
def characterOffset (contents : List Char) (offset : Nat) : Nat :=
  if Text.isBoundary contents offset then (Text.takeBytes offset contents).length else offset

def endsLine (c : Char) : Bool :=
  Text.isLineBreak c || c == '\x0b' || c == '\x0c' || c == '\u0085'

/-- The line and the column, both from zero, of the character at an offset from a place. -/
def placeFrom (line column : Nat) : Nat → List Char → Option (Nat × Nat)
  | 0, _ => some (line, column)
  | _ + 1, [] => none
  | n + 1, c :: cs =>
    let goesOn := cs.isEmpty || (c == '\r' && cs.head? == some '\n')
    if endsLine c && !goesOn then placeFrom (line + 1) 0 n cs else placeFrom line (column + 1) n cs

/-- The lines that tell about a place. -/
def render (severity : Severity) (file : String) (contents : List Char) (message : String)
    (range : ByteRange) : List String :=
  let place := match placeFrom 0 0 (characterOffset contents range.start) contents with
    | some (line, column) => toString (line + 1) ++ ":" ++ toString (column + 1)
    | none => "?:?"
  [severity.label ++ ": " ++ message, "╭─[" ++ file ++ ":" ++ place ++ "]"]

end Contracts.Diagnostic
