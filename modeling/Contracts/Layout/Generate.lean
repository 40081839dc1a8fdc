import Contracts.Layout.Printer
import Contracts.Position.SourceMap

/-!
# Generating code

A script is printed on a page, and the page gives the code, the position map and, where it is asked
for, the source map document.
-/

namespace Contracts

structure GenerateOptions where
  /-- Print the comments of the source too. -/
  comments : Bool
  sourceMap : Bool
  deriving DecidableEq, Repr

def GenerateOptions.default : GenerateOptions := ⟨false, false⟩

structure Generated where
  code : String
  map : PositionMap
  sourceMap : Option String
  deriving DecidableEq, Repr

/-- The code of a script whose spans point into `source`, with the comments that may be printed. -/
def Script.generate (script : Script) (source : Source) (comments : List Comment)
    (options : GenerateOptions) : Generated :=
  let page := (Page.empty (if options.comments then comments else [])).putAll script.pieces
  let code := page.text
  let records := page.records.reverse
  { code := String.ofList code
    map := .ofRecords code records source
    sourceMap := if options.sourceMap then some (SourceMap.document source records) else none }

end Contracts
