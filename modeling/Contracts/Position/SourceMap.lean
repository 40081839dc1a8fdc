import Contracts.Json.Value
import Contracts.Position.Map
import Contracts.Position.Vlq

/-!
# Source map documents

The records of a page as a document of the common source map format. Each record becomes a segment
of four numbers: the column, the source, and the line and the column in it. The numbers are written
as differences to the segment before; the column starts anew on every line of the generated text.

Lines of the source end at a line feed, a carriage return, or the two together; columns count UTF-16
units.
-/

namespace Contracts.SourceMap

/-- A place of the generated text and the place of the source it comes from. -/
structure Segment where
  line : Nat
  column : Nat
  sourceLine : Nat
  sourceColumn : Nat
  deriving DecidableEq, Repr

/-- The byte offsets at which the lines of a source start, each with the text from there on. -/
def sourceLinesFrom (offset : Nat) : List Char → List (Nat × List Char)
  | [] => []
  | '\r' :: '\n' :: cs => (offset + 2, cs) :: sourceLinesFrom (offset + 2) cs
  | c :: cs =>
    let next := offset + c.utf8Size
    if c = '\n' || c = '\r' then (next, cs) :: sourceLinesFrom next cs else sourceLinesFrom next cs

def sourceLines (cs : List Char) : List (Nat × List Char) :=
  (0, cs) :: sourceLinesFrom 0 cs

/-- The line and the column of a byte offset, given the lines with their numbers backwards. -/
def sourcePlace (linesBackwards : List (Nat × Nat × List Char)) (offset : Nat) : Nat × Nat :=
  match linesBackwards.find? fun (_, start, _) => start ≤ offset with
  | some (line, start, rest) => (line, Text.unitLength (Text.takeBytes (offset - start) rest))
  | none => (0, 0)

def numbered (lines : List (Nat × List Char)) : List (Nat × Nat × List Char) :=
  lines.zipIdx.map fun ((start, rest), line) => (line, start, rest)

/-- The segments of the records, in their order, equal neighbours once. -/
def segments (source : Source) (records : List Record) : List Segment :=
  let lines := (numbered (sourceLines source.text)).reverse
  let all := records.map fun r =>
    let (line, column) := sourcePlace lines (source.offset r.position)
    (⟨r.line, r.column, line, column⟩ : Segment)
  (all.foldl (fun kept s => if kept.head? = some s then kept else s :: kept) []).reverse

/-- The differences of a segment to the one before it. -/
def fields (before : Segment) (s : Segment) : List Int :=
  let column : Int := if s.line = before.line then s.column - before.column else s.column
  [column, 0, (s.sourceLine : Int) - before.sourceLine, (s.sourceColumn : Int) - before.sourceColumn]

/-- Write segments after `before`; `isFirst` says whether nothing stands on the line yet. -/
def writeFrom (before : Segment) (isFirst : Bool) : List Segment → List Char
  | [] => []
  | s :: ss =>
    let lineEnds := List.replicate (s.line - before.line) ';'
    let comma := if lineEnds.isEmpty && !isFirst then [','] else []
    lineEnds ++ comma ++ (fields before s).flatMap Vlq.encode ++ writeFrom s false ss

def mappings (ss : List Segment) : String :=
  String.ofList (writeFrom ⟨0, 0, 0, 0⟩ true ss)

/-- The document for the records of a page. -/
def document (source : Source) (records : List Record) : String :=
  let sources := if records.isEmpty then [] else [Json.string source.file]
  (Json.object
    [("version", .number "3"), ("sources", .array sources), ("names", .array []),
      ("mappings", .string (mappings (segments source records)))]).compact

end Contracts.SourceMap
