import Contracts.Directive.Basic
import Contracts.Text.Escaped
import Contracts.Wrap.Basic

/-!
# The log

What the program tells about its work, as events of four levels. A line of the log is the level, the
message and the fields of the event.
-/

namespace Contracts

inductive LogLevel where
  | warn
  | info
  | debug
  | trace
  deriving DecidableEq, Repr

namespace LogLevel

def name : LogLevel → String
  | .warn => "WARN"
  | .info => "INFO"
  | .debug => "DEBUG"
  | .trace => "TRACE"

/-- How much has to be asked for until events of the level are shown. -/
def rank : LogLevel → Nat
  | .warn => 0
  | .info => 1
  | .debug => 2
  | .trace => 3

end LogLevel

inductive LogEvent where
  | instrumenting (file : String) (bytes : Nat)
  | unrecognized (comment : Comment)
  | skippingDirective (error : DirectiveError) (file : String) (offset : Nat)
  | inserting (kind : DirectiveKind) (scope : Nat)
  | wrapping (kind : SiteKind) (called : String)
  | instrumented (file : String) (directives mappings : Nat)
  | skippingFile (file : String)
  | wrote (file : String)
  | mapNeedsDirectory
  deriving DecidableEq, Repr

namespace LogEvent

def level : LogEvent → LogLevel
  | .instrumenting _ _ | .inserting _ _ | .instrumented _ _ _ | .skippingFile _ => .debug
  | .unrecognized _ | .skippingDirective _ _ _ | .mapNeedsDirectory => .warn
  | .wrapping _ _ => .trace
  | .wrote _ => .info

def wrappingText : SiteKind → String → String
  | .declaration, called => "wrapping function declaration function=" ++ called
  | .initializer, label => "wrapping function expression label=" ++ label
  | .returned, label => "wrapping returned function label=" ++ label

/-- The message of an event with its fields. -/
def text : LogEvent → String
  | .instrumenting file bytes =>
    "instrumenting file=" ++ Text.escaped file ++ " bytes=" ++ toString bytes
  | .unrecognized c =>
    "unrecognized typify directive offset=" ++ toString c.span.lo ++ " text=" ++
      Text.escaped (String.ofList (Text.trim c.text.toList))
  | .skippingDirective e file offset =>
    "skipping directive: " ++ e.message ++ " file=" ++ Text.escaped file ++ " offset=" ++
      toString offset
  | .inserting kind scope =>
    "inserting directive directive=" ++ Text.escaped kind.method ++ " name=" ++
      Text.escaped kind.name ++ " scope=" ++ toString scope
  | .wrapping kind called => wrappingText kind called
  | .instrumented file directives mappings =>
    "instrumented file=" ++ Text.escaped file ++ " directives=" ++ toString directives ++
      " mappings=" ++ toString mappings
  | .skippingFile file => "skipping excluded file file=" ++ file
  | .wrote file => "wrote file=" ++ file
  | .mapNeedsDirectory => "--source-map needs --out-dir; no map written"

def line (e : LogEvent) : String :=
  e.level.name ++ " " ++ e.text

end LogEvent

end Contracts
