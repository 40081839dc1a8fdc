import Contracts.Syntax.Comment
import Contracts.Text.Basic

/-!
# Writing text on a page

What is to be printed is a list of pieces: text, line ends, changes of the indentation, and marks
that ask for a source position to be recorded where they stand. A page takes the pieces one after the
other. It knows the place it has reached, counted in lines and in UTF-16 units, and whether its
current line is still empty; the indentation is written only in front of the first text of a line.

A mark on an empty line waits for that first text, and a later mark replaces it. Edges are recorded
at the text they stand at, and spots at once, even before the indentation.
-/

namespace Contracts

inductive Piece where
  | text (s : String)
  | newline
  | indent
  | dedent
  /-- Record the position here, or in front of the first text of a line that is still empty. -/
  | mark (position : Nat)
  /-- Record the position at the text that is just written, after the indentation. -/
  | edge (position : Nat)
  /-- Record the position at once. -/
  | spot (position : Nat)
  /-- The comments that lead the token at the position. -/
  | leading (position : Nat)
  /-- The comments that trail the token that ends at the position. -/
  | trailing (position : Nat)
  deriving DecidableEq, Repr

/-- A source position and the place on the page where it was met. -/
structure Record where
  position : Nat
  line : Nat
  column : Nat
  deriving DecidableEq, Repr

structure Page where
  /-- The written texts, the latest first. -/
  written : List String
  line : Nat
  column : Nat
  /-- Whether nothing has been written on the current line. -/
  isBlank : Bool
  /-- The current indentation in levels. -/
  depth : Nat
  /-- The mark that waits for the first text of the line. -/
  pending : Option Nat
  /-- What was recorded, the latest first. -/
  records : List Record
  /-- The comments that are still to be printed. -/
  comments : List Comment

namespace Page

def empty (comments : List Comment) : Page :=
  ⟨[], 0, 0, true, 0, none, [], comments⟩

/-- The place after a text that starts at a line and a column. Inside a text a line feed, a carriage
return, and the two together end a line. -/
def place (line column : Nat) : List Char → Nat × Nat
  | [] => (line, column)
  | '\r' :: '\n' :: cs => place (line + 1) 0 cs
  | c :: cs =>
    if c = '\n' || c = '\r' then place (line + 1) 0 cs else place line (column + Text.units16 c) cs

/-- Record a position at the current place. No position is recorded twice at one place; since places
never go back, only the latest records can be at the current one. -/
def record (p : Page) (position : Nat) : Page :=
  let r : Record := ⟨position, p.line, p.column⟩
  let here := p.records.takeWhile fun q => q.line == p.line && q.column == p.column
  if here.contains r then p else { p with records := r :: p.records }

/-- Write the indentation of a line that is still empty, and record what waits for it. -/
def openLine (p : Page) : Page :=
  if p.isBlank then
    let width := 4 * p.depth
    let q := { p with
      written := String.ofList (List.replicate width ' ') :: p.written
      column := p.column + width, isBlank := false, pending := none }
    match p.pending with
    | some position => q.record position
    | none => q
  else p

def write (p : Page) (s : String) : Page :=
  if s.isEmpty then p
  else
    let q := p.openLine
    let (line, column) := place q.line q.column s.toList
    { q with written := s :: q.written, line := line, column := column }

/-- End the line, unless it is still empty. -/
def newline (p : Page) : Page :=
  if p.isBlank then { p with pending := none }
  else
    { p with
      written := "\n" :: p.written, line := p.line + 1, column := 0, isBlank := true
      pending := none }

def mark (p : Page) (position : Nat) : Page :=
  if p.isBlank then { p with pending := some position } else p.record position

/-- Write a comment that leads what follows. -/
def writeLeading (p : Page) (c : Comment) : Page :=
  match c.kind with
  | .line => (p.write ("//" ++ c.text)).newline
  | .block => p.write ("/*" ++ c.text ++ "*/ ")

/-- Write a comment that trails what was written. -/
def writeTrailing (p : Page) (c : Comment) : Page :=
  match c.kind with
  | .line => (p.write (" //" ++ c.text)).newline
  | .block => p.write (" /*" ++ c.text ++ "*/")

/-- Write the comments at an anchor, each of which is printed once. -/
def writeComments (p : Page) (anchor : Anchor) (one : Page → Comment → Page) : Page :=
  let (now, later) := p.comments.partition fun c => c.anchor == anchor
  now.foldl one { p with comments := later }

/-- Put one piece on the page. -/
def put (p : Page) : Piece → Page
  | .text s => p.write s
  | .newline => p.newline
  | .indent => { p with depth := p.depth + 1 }
  | .dedent => { p with depth := p.depth - 1 }
  | .mark position => p.mark position
  | .edge position => p.openLine.record position
  | .spot position => p.record position
  | .leading position => p.writeComments (.leading position) writeLeading
  | .trailing position => p.writeComments (.trailing position) writeTrailing

/-- The page after all pieces. -/
def putAll (p : Page) (pieces : List Piece) : Page :=
  pieces.foldl put p

/-- The text of the page without the line ends after its last text. -/
def text (p : Page) : List Char :=
  let cs := (String.join p.written.reverse).toList
  (cs.reverse.dropWhile (· == '\n')).reverse

end Page

end Contracts
