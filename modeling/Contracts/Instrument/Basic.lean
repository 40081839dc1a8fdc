import Contracts.Directive.Insertion
import Contracts.Instrument.Log
import Contracts.Layout.Generate

/-!
# Instrumenting a file

Reading, inserting the directives, wrapping the functions and printing, in this order. The work on
one file is a pure function of the configuration and the file: it gives the result, the functions
that were met, and the events for the log. A session adds up the statistics of several files; a file
that fails leaves them as they are.
-/

namespace Contracts

/-- A malformed directive that was passed over, with the bytes of its comment. -/
structure SkippedDirective where
  error : DirectiveError
  range : ByteRange
  deriving DecidableEq, Repr

structure Instrumented where
  code : String
  map : PositionMap
  sourceMap : Option String
  warnings : List SkippedDirective
  deriving DecidableEq, Repr

inductive InstrumentError where
  | parse (error : ParseError)
  | directive (error : DirectiveError) (range : ByteRange)
  deriving DecidableEq, Repr

namespace InstrumentError

def message : InstrumentError → String
  | .parse e => "parse error: " ++ e.message
  | .directive e _ => "directive error: " ++ e.message

def range : InstrumentError → ByteRange
  | .parse e => e.range
  | .directive _ range => range

end InstrumentError

/-- The work on one file: its result, the functions that were met, and what the log tells. -/
structure Work where
  result : Except InstrumentError Instrumented
  sites : List Site
  log : List LogEvent

namespace Work

/-- The events for the functions that were wrapped. -/
def wrappingEvents (sites : List Site) : List LogEvent :=
  sites.filterMap fun site => site.wrapped.map fun called => .wrapping site.kind called

/-- The events for the directives that are inserted. -/
def insertingEvents (script : Script) (ds : List Directive) : List LogEvent :=
  (Insertion.plan (Scope.ofScript script) ds).map fun (d, scope) => .inserting d.kind scope

/-- The tree that is printed, and the functions that were met. -/
def transform (config : Config) (p : Parsed) (ds : List Directive) : Script × List Site :=
  (p.script.insertDirectives ds config.checker).wrapFunctions p.comments config .standard

/-- Work on a file that has been read, with its directives collected. -/
def ofParsed (config : Config) (p : Parsed) (found : Directive.Collected) : Work :=
  let file := p.source.file
  let skipped : List SkippedDirective := found.errors.map fun e => ⟨e, p.source.range e.span⟩
  let unrecognized := found.unrecognized.map LogEvent.unrecognized
  match config.strictDirectives, skipped with
  | true, first :: _ => ⟨.error (.directive first.error first.range), [], unrecognized⟩
  | _, _ =>
    let (script, sites) := transform config p found.directives
    let g := script.generate p.source p.comments ⟨false, config.sourceMap⟩
    let log := unrecognized ++
      skipped.map (fun w => .skippingDirective w.error file w.range.start) ++
      insertingEvents p.script found.directives ++ wrappingEvents sites ++
      [.instrumented file found.directives.length g.map.mappings.size]
    ⟨.ok ⟨g.code, g.map, g.sourceMap, skipped⟩, sites, log⟩

/-- Work on the contents of a file. -/
def onFile (config : Config) (contents file : String) : Work :=
  let started := LogEvent.instrumenting file (Text.byteLength contents.toList)
  match (Source.ofContents file contents).parse with
  | .error e => ⟨.error (.parse e), [], [started]⟩
  | .ok p =>
    let work := ofParsed config p (Directive.collect p.comments)
    { work with log := started :: work.log }

end Work

/-- One configuration, and the statistics of the files so far. -/
structure Session where
  config : Config
  stats : Stats
  deriving DecidableEq, Repr

namespace Session

def start (config : Config) : Session :=
  ⟨config, .zero⟩

/-- Instrument the contents of a file. -/
def instrument (s : Session) (contents file : String) :
    Except InstrumentError Instrumented × Session :=
  let work := Work.onFile s.config contents file
  (work.result, { s with stats := s.stats.addSites work.sites })

/-- The instrumented code only. -/
def transform (s : Session) (contents file : String) : Except InstrumentError String × Session :=
  let (result, after) := s.instrument contents file
  (result.map Instrumented.code, after)

end Session

end Contracts
