import Contracts.Syntax.Token.Gap
import Contracts.Syntax.Token.Scan
import Contracts.Syntax.Tree

/-!
# Where the grammar stands in the text

A cursor holds the token that is looked at, the text after it, the token before it, and the comments
and the minor faults met so far. The rules of the grammar are computations that move a cursor and may
fail with a fault; nothing else is carried between them.

`many` and `iterate` are the two loops of the grammar. Each pass of a loop takes at least one
character, so the number of characters of the whole text bounds the number of passes; the cursor
carries a bound of this kind along.
-/

namespace Contracts

structure Cursor where
  /-- The token that is looked at. -/
  token : Token
  /-- The text after it. -/
  rest : List Char
  /-- The token before it. -/
  last : Option Token
  /-- Where the token before it ends; zero at the start of the file. -/
  finish : Nat
  /-- All comments so far, the latest first. -/
  comments : List Comment
  /-- Faults after which reading went on, the latest first. -/
  minor : List Fault
  /-- More than the number of characters of the whole text. -/
  limit : Nat

/-- A rule of the grammar. -/
abbrev Rule := StateT Cursor (Except Fault)

namespace Cursor

/-- Read the gap that starts at `position` and the token after it. -/
def moveFrom (c : Cursor) (last : Option Token) (position finish : Nat) (isBroken : Bool)
    (cs : List Char) : Except Fault Cursor := do
  let gap := Gap.read isBroken position cs
  let next ← Token.scan gap.position gap.isBroken gap.rest
  let found := Gap.attach (last.map Token.kind) finish next.token gap.comments
  return {
    token := next.token, rest := next.rest, last := last, finish := finish
    comments := found.reverse ++ c.comments
    minor := next.minor.toList ++ gap.minor.toList ++ c.minor
    limit := c.limit }

/-- The cursor at the token after the current one. -/
def next (c : Cursor) : Except Fault Cursor :=
  c.moveFrom (some c.token) c.token.span.hi c.token.span.hi false c.rest

/-- The cursor at the first token of a text. A line that starts with `#!` is stepped over and counts
as a token that ends the line; its text after the two characters is given back. -/
def start (cs : List Char) : Except Fault (Option String × Cursor) := do
  let blank : Cursor :=
    { token := ⟨.endOfFile, ⟨1, 1⟩, true⟩, rest := [], last := none, finish := 0
      comments := [], minor := [], limit := cs.length + 2 }
  match cs with
  | '#' :: '!' :: tail =>
    let text := tail.takeWhile fun c => !Text.isLineBreak c
    let stop := 3 + Text.byteLength text
    let c ← blank.moveFrom none stop stop true (tail.dropWhile fun c => !Text.isLineBreak c)
    return (some (String.ofList text), c)
  | _ => return (none, ← blank.moveFrom none 1 0 true cs)

end Cursor

namespace Rule

/-- Fail with a fault at a span. -/
def fault {α : Type} (cause : Cause) (span : Span) : Rule α :=
  throw ⟨cause, span⟩

/-- Note a fault and go on. -/
def note (cause : Cause) (span : Span) : Rule Unit :=
  modify fun c => { c with minor := ⟨cause, span⟩ :: c.minor }

def current : Rule Token :=
  return (← get).token

def kind : Rule TokenKind :=
  return (← get).token.kind

/-- Where the current token starts; the end of the file counts as right after the last token. -/
def here : Rule Nat := do
  let c ← get
  if c.token.kind == .endOfFile then return max 1 c.finish else return c.token.span.lo

/-- Where the last token that was taken ends. -/
def finish : Rule Nat :=
  return (← get).finish

def advance : Rule Unit := do
  set (← (← get).next)

/-- The token after the current one; a text that has none counts as ended there. -/
def peek : Rule Token := do
  let c ← get
  match c.next with
  | .ok d => return d.token
  | .error _ => return ⟨.endOfFile, ⟨c.token.span.hi, c.token.span.hi⟩, false⟩

def atEnd : Rule Bool :=
  return (← kind) == .endOfFile

def isAt (text : String) : Rule Bool :=
  return (← kind).isPunctuator text

def isAtWord (text : String) : Rule Bool :=
  return (← kind).isWord text

/-- Take the mark `text` if it is there. -/
def take? (text : String) : Rule Bool := do
  if ← isAt text then
    advance
    return true
  else return false

/-- Take the word `text` if it is there. -/
def takeWord? (text : String) : Rule Bool := do
  if ← isAtWord text then
    advance
    return true
  else return false

/-- The span that faults at the current token are reported at: at the end of the file that is the
last token. -/
def spanHere : Rule Span := do
  let c ← get
  if c.token.kind == .endOfFile then return (c.last.map Token.span).getD c.token.span
  else return c.token.span

/-- Fail because the file has ended. -/
def faultAtEnd {α : Type} : Rule α := do
  let stop ← here
  fault .unexpectedEnd ⟨stop, stop⟩

/-- The node of the production `form` that starts at `start` and ends with the last token taken. -/
def finishNode (start : Nat) (form : Form) (children : List Tree) : Rule Tree := do
  return .node form ⟨start, ← finish⟩ children

/-- Apply `item` until `stop` holds. -/
def manyWithin (stop : Rule Bool) (item : Rule Tree) : Nat → Rule (List Tree)
  | 0 => return []
  | n + 1 => do
    if ← stop then return []
    else
      let t ← item
      return t :: (← manyWithin stop item n)

def many (stop : Rule Bool) (item : Rule Tree) : Rule (List Tree) := do
  manyWithin stop item (← get).limit

/-- Apply `step` to a tree and to what it gives, until it gives nothing. -/
def iterateWithin (step : Tree → Rule (Option Tree)) : Nat → Tree → Rule Tree
  | 0, t => return t
  | n + 1, t => do
    match ← step t with
    | some u => iterateWithin step n u
    | none => return t

def iterate (step : Tree → Rule (Option Tree)) (t : Tree) : Rule Tree := do
  iterateWithin step (← get).limit t

end Rule

end Contracts
