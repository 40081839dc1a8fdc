import Contracts.Layout.Page
import Contracts.Syntax.Source

/-!
# Where generated text comes from

A position map lists places of a generated text together with the offsets of the source they come
from, by ascending offset in the generated text. It is built from the records of a page: those that
lie in the file and on an existing line are kept, as long as they advance.

Places on a page are lines and columns in UTF-16 units. `lineStarts` and `byteColumn` take them back
to byte offsets; here only a line feed ends a line.
-/

namespace Contracts

structure Mapping where
  /-- Byte offset in the generated text. -/
  generated : Nat
  line : Nat
  column : Nat
  /-- Byte offset in the source. -/
  source : Nat
  deriving DecidableEq, Repr, Inhabited

structure PositionMap where
  mappings : Array Mapping
  deriving DecidableEq, Repr

namespace PositionMap

/-- The byte offsets at which the lines of a text start, each with the text from there on. -/
def lineStartsFrom (offset : Nat) : List Char → List (Nat × List Char)
  | [] => []
  | c :: cs =>
    let next := offset + c.utf8Size
    if c = '\n' then (next, cs) :: lineStartsFrom next cs else lineStartsFrom next cs

def lineStarts (cs : List Char) : List (Nat × List Char) :=
  (0, cs) :: lineStartsFrom 0 cs

/-- The number of bytes of the first `column` units of a line. A character that the column cuts
counts as a whole, and nothing beyond the end of the line counts. -/
def byteColumn : Nat → List Char → Nat
  | _, [] => 0
  | column, c :: cs =>
    if column = 0 || c = '\n' then 0
    else c.utf8Size + byteColumn (column - Text.units16 c) cs

/-- The byte offset of a place, if its line exists. -/
def placeOffset (starts : Array (Nat × List Char)) (line column : Nat) : Option Nat :=
  starts[line]?.map fun (offset, rest) => offset + byteColumn column rest

/-- The mapping of a record that lies in the file and on a line that exists. -/
def mappingOf (source : Source) (starts : Array (Nat × List Char)) (r : Record) : Option Mapping :=
  if source.contains r.position then
    (placeOffset starts r.line r.column).map fun generated =>
      ⟨generated, r.line, r.column, source.offset r.position⟩
  else none

/-- Append a mapping, unless it does not advance beyond the last one. -/
def push (ms : Array Mapping) (m : Mapping) : Array Mapping :=
  match ms.back? with
  | some last => if m.generated ≤ last.generated then ms else ms.push m
  | none => ms.push m

/-- The map of the records that were made while `code` was printed. -/
def ofRecords (code : List Char) (records : List Record) (source : Source) : PositionMap :=
  let starts := (lineStarts code).toArray
  ⟨(records.filterMap (mappingOf source starts)).foldl push #[]⟩

/-- The number of mappings at the start of the map, from `low` on and before `high`, that are at or
before `generated`: halve the stretch until nothing is left of it. -/
def partitionPoint (ms : Array Mapping) (generated low high : Nat) : Nat :=
  if low < high then
    let middle := (low + high) / 2
    if ms[middle]?.any fun m => m.generated ≤ generated then
      partitionPoint ms generated (middle + 1) high
    else partitionPoint ms generated low middle
  else low
  termination_by high - low

/-- The source offset of the last mapping at or before an offset of the generated text. -/
def sourceOffset (map : PositionMap) (generated : Nat) : Option Nat :=
  match partitionPoint map.mappings generated 0 map.mappings.size with
  | 0 => none
  | n + 1 => map.mappings[n]?.map Mapping.source

end PositionMap

end Contracts
