import Contracts.Command.Arguments
import Contracts.Command.Diagnostic
import Contracts.Command.Files
import Contracts.Config.Read
import Contracts.Instrument.Basic
import Contracts.Syntax.Dump

/-!
# Running the program

A run is a function of the arguments and of the files it can see. It gives the exit code, what is
written on the standard output, the lines on the standard error output, and the files afterwards.

`instrument` reads the configuration first, then looks for its input files, and then works on them
one after the other. A file that cannot be read ends the run at once; one that cannot be instrumented
or written is told about and makes the run fail in the end.
-/

namespace Contracts.Command

structure Outcome where
  exit : Nat
  output : String
  messages : List String
  files : FileTree

/-- A file to instrument: its path, and where its output goes below the output directory. -/
structure Input where
  path : String
  relative : String
  deriving DecidableEq, Repr

/-- The inputs of a run, or why there are none, and what the log tells. -/
structure Inputs where
  found : Except String (List Input)
  log : List LogEvent

/-- The input files below a directory. -/
def inputsBelow (path : String) (all : Bool) (below : List Location) : List Input × List LogEvent :=
  let scripts := below.filter fun l => Path.isScriptName (l.getLastD "")
  let inputs := scripts.map fun l =>
    (⟨Path.join path (FileTree.pathOf l), FileTree.pathOf l⟩ : Input)
  let wanted := inputs.filter fun i => all || Path.isInstrumentable i.relative
  let excluded := inputs.filter fun i => !(all || Path.isInstrumentable i.relative)
  (wanted, excluded.map fun i => .skippingFile i.path)

/-- Expand the paths of the command line. A file counts whatever its name is; of a directory the
scripts count that are not excluded. -/
def collectInputs (files : FileTree) (all : Bool) : List String → Inputs
  | [] => ⟨.ok [], []⟩
  | path :: paths =>
    match files.fileAt? path, files.directoryAt? path with
    | some _, _ =>
      let rest := collectInputs files all paths
      let input : Input := ⟨path, (Path.fileName? path).getD path⟩
      ⟨rest.found.map (input :: ·), rest.log⟩
    | none, some l =>
      let rest := collectInputs files all paths
      let (inputs, log) := inputsBelow path all (files.below l)
      ⟨rest.found.map (inputs ++ ·), log ++ rest.log⟩
    | none, none => ⟨.error (path ++ ": no such file or directory"), []⟩

/-- The lines of the log that a request asks for. -/
def logLines (r : Request) (log : List LogEvent) : List String :=
  if r.quiet then []
  else (log.filter fun e => e.level.rank ≤ r.verbose).map LogEvent.line

/-- Where a run stands. -/
structure Progress where
  session : Session
  files : FileTree
  output : String
  messages : List String
  succeeded : Bool
  /-- Whether the run has ended early. -/
  stopped : Bool

namespace Progress

def say (p : Progress) (lines : List String) : Progress :=
  { p with messages := p.messages ++ lines }

/-- Write a file and tell how it went. -/
def write (r : Request) (p : Progress) (path text : String) (log : List LogEvent) : Progress × Bool :=
  match p.files.write path (text ++ "\n") with
  | .ok files => ({ p with files := files }.say (logLines r log), true)
  | .error e =>
    ({ p with succeeded := false }.say ["Error writing " ++ path ++ ": " ++ e.message], false)

/-- Hand out the result for one input. -/
def deliver (r : Request) (outDir : Option String) (input : Input) (p : Progress)
    (result : Instrumented) : Progress :=
  match outDir with
  | none => { p with output := p.output ++ result.code ++ "\n" }
  | some directory =>
    let path := Path.join directory input.relative
    let (p, isWritten) := p.write r path result.code [.wrote path]
    match isWritten, result.sourceMap with
    | true, some map => (p.write r (path ++ ".map") map []).1
    | _, _ => p

/-- The lines about a file that was instrumented or could not be. -/
def report (input : Input) (contents : String) :
    Except InstrumentError Instrumented → List String
  | .error (.parse e) =>
    Diagnostic.render .error input.path contents.toList e.message e.range
  | .error (.directive e range) =>
    Diagnostic.render .error input.path contents.toList e.message range
  | .ok result => result.warnings.flatMap fun w =>
    Diagnostic.render .warning input.path contents.toList w.error.message w.range

/-- Work on one input. -/
def step (r : Request) (outDir : Option String) (p : Progress) (input : Input) : Progress :=
  if p.stopped then p
  else
    match p.files.read input.path with
    | .error e =>
      { p with stopped := true, succeeded := false }.say
        ["Error reading " ++ input.path ++ ": " ++ e.message]
    | .ok contents =>
      let work := Work.onFile p.session.config contents input.path
      let stats := p.session.stats.addSites work.sites
      let p := { p with session := { p.session with stats := stats } }
      let p := p.say (logLines r work.log ++ report input contents work.result)
      match work.result with
      | .error _ => { p with succeeded := false }
      | .ok result => p.deliver r outDir input result

end Progress

/-- A run that ends with a message. -/
def failed (files : FileTree) (messages : List String) : Outcome :=
  ⟨1, "", messages, files⟩

/-- The configuration of a run, or the message with which it fails. -/
def loadConfig (files : FileTree) : Option String → Except String Config
  | none => .ok .default
  | some path =>
    match files.read path with
    | .error e => .error ("Error reading " ++ path ++ ": " ++ e.message)
    | .ok text =>
      match Config.read text with
      | .ok config => .ok config
      | .error e => .error ("Error in config " ++ path ++ ": " ++ e.message)

/-- The configuration after the options of the command line. -/
def overrideConfig (config : Config) (checker : Option String) (strict sourceMap : Bool) : Config :=
  { config with
    checker := checker.getD config.checker
    strictDirectives := strict || config.strictDirectives
    sourceMap := sourceMap }

def runInstrument (r : Request) (files : FileTree) (paths : List String) (outDir : Option String)
    (sourceMap : Bool) (configFile checker : Option String) (strict all : Bool) : Outcome :=
  match loadConfig files configFile with
  | .error message => failed files [message]
  | .ok loaded =>
    let inputs := collectInputs files all paths
    let log := logLines r inputs.log
    match inputs.found with
    | .error message => failed files (log ++ ["Error: " ++ message])
    | .ok found =>
      if outDir.isNone && 1 < found.length then
        failed files (log ++ ["Error: " ++ toString found.length ++ " input files need --out-dir"])
      else
        let config := overrideConfig loaded checker strict (sourceMap && outDir.isSome)
        let warning := if sourceMap && outDir.isNone then [LogEvent.mapNeedsDirectory] else []
        let start : Progress :=
          ⟨.start config, files, "", log ++ logLines r warning, true, false⟩
        let finish := found.foldl (Progress.step r outDir) start
        let report := if finish.stopped then [] else finish.session.stats.lines
        ⟨if finish.succeeded then 0 else 1, finish.output, finish.messages ++ report, finish.files⟩

/-- Read a file and parse it, or fail. -/
def withParsed (files : FileTree) (path : String) (k : String → Parsed → Outcome) : Outcome :=
  match files.read path with
  | .error e => failed files ["Error reading " ++ path ++ ": " ++ e.message]
  | .ok contents =>
    match (Source.ofContents path contents).parse with
    | .error e =>
      failed files (Diagnostic.render .error path contents.toList e.message e.range)
    | .ok p => k contents p

def runParse (files : FileTree) (path : String) (pretty : Bool) : Outcome :=
  withParsed files path fun _ p =>
    let value := Dump.script p.script
    ⟨0, (if pretty then value.pretty 0 else value.compact) ++ "\n", [], files⟩

/-- A directive as it is listed. -/
def listed (s : Source) (d : Directive) : Json :=
  let range := s.range d.span
  let detail : List (String × Json) := match d.kind with
    | .synonym _ definition => [("definition", .string definition)]
    | .instances _ => []
    | .choice _ fields => [("fields", .object (fields.map fun (k, t) => (k, .string t)))]
  .object ([("directive", .string d.kind.method), ("name", .string d.kind.name)] ++ detail ++
    [("start", .ofNat range.start), ("end", .ofNat range.stop)])

def runDirectives (r : Request) (files : FileTree) (path : String) : Outcome :=
  withParsed files path fun contents p =>
    let found := Directive.collect p.comments
    let log := logLines r (found.unrecognized.map LogEvent.unrecognized)
    let warnings := found.errors.flatMap fun e =>
      Diagnostic.render .warning path contents.toList e.message (p.source.range e.span)
    let value := Json.array (found.directives.map (listed p.source))
    ⟨0, value.pretty 0 ++ "\n", log ++ warnings, files⟩

/-- Do what a request asks for. -/
def Request.run (r : Request) (files : FileTree) : Outcome :=
  match r.action with
  | .instrument paths outDir sourceMap config checker strict all =>
    runInstrument r files paths outDir sourceMap config checker strict all
  | .parse file pretty => runParse files file pretty
  | .directives file => runDirectives r files file

/-- Run the program. A wrong command line fails with the exit code two. -/
def run (arguments : List String) (files : FileTree) : Outcome :=
  match Request.read arguments with
  | .ok r => r.run files
  | .error .help => ⟨0, "", [], files⟩
  | .error .wrong => ⟨2, "", [], files⟩

end Contracts.Command
