/-!
# Command line arguments

The arguments are gone through once, from left to right, with what they said so far carried along. An
option that takes a value takes what stands after an equals sign or, in its short form, right behind
it, and otherwise the next argument, which must not look like an option itself. No option may be
given twice, except `--verbose`, which counts. The general options may stand before the command or
behind it; where both are given, the ones behind it count.
-/

namespace Contracts.Command

/-- What to do with which files. -/
inductive Action where
  | instrument (paths : List String) (outDir : Option String) (sourceMap : Bool)
      (config : Option String) (checker : Option String) (strict all : Bool)
  | parse (file : String) (pretty : Bool)
  | directives (file : String)
  deriving DecidableEq, Repr

/-- The paths that an action looks at. -/
def Action.paths : Action → List String
  | .instrument paths outDir _ config _ _ _ => paths ++ outDir.toList ++ config.toList
  | .parse file _ | .directives file => [file]

/-- What the whole command line says. -/
structure Request where
  verbose : Nat
  quiet : Bool
  action : Action
  deriving DecidableEq, Repr

/-- Why a command line asks for nothing: help was wanted, or it is wrong. -/
inductive Refusal where
  | help
  | wrong
  deriving DecidableEq, Repr

inductive Verb where
  | instrument
  | parse
  | directives
  deriving DecidableEq, Repr

inductive Switch where
  | verbose
  | quiet
  | help
  | outDir
  | sourceMap
  | config
  | checker
  | strict
  | all
  | pretty
  deriving DecidableEq, Repr

namespace Switch

def takesValue : Switch → Bool
  | .outDir | .config | .checker => true
  | _ => false

/-- Whether an empty value is refused, as it is no path. -/
def needsPath : Switch → Bool
  | .outDir | .config => true
  | _ => false

def general : List (String × Switch) :=
  [("verbose", .verbose), ("v", .verbose), ("quiet", .quiet), ("q", .quiet), ("help", .help),
    ("h", .help)]

/-- The options of a verb by their names, long and short. -/
def named : Option Verb → List (String × Switch)
  | none | some .directives => general
  | some .parse => general ++ [("pretty", .pretty), ("p", .pretty)]
  | some .instrument =>
    general ++ [("out-dir", .outDir), ("o", .outDir), ("source-map", .sourceMap),
      ("config", .config), ("checker", .checker), ("strict", .strict), ("all", .all)]

/-- The option of a long name, which has more than one letter. -/
def long? (verb : Option Verb) (name : String) : Option Switch :=
  if name.length < 2 then none else List.lookup name (named verb)

def short? (verb : Option Verb) (letter : Char) : Option Switch :=
  List.lookup (String.singleton letter) (named verb)

end Switch

/-- What the arguments said so far. -/
structure State where
  verb : Option Verb
  /-- How often `--verbose` was given before the verb, and behind it. -/
  verboseBefore : Nat
  verboseAfter : Nat
  /-- The other options, the latest first, with their values and whether they stood behind the verb. -/
  given : List (Switch × Bool × String)
  positional : List String
  /-- The option that waits for its value. -/
  waiting : Option Switch
  /-- Whether the rest are no options. -/
  onlyPositional : Bool
  deriving DecidableEq, Repr

namespace State

def start : State := ⟨none, 0, 0, [], [], none, false⟩

/-- Note an option and its value. -/
def give (s : State) (o : Switch) (value : String) : Except Refusal State :=
  let isBehind := s.verb.isSome
  match o with
  | .help => .error .help
  | .verbose =>
    .ok (if isBehind then { s with verboseAfter := s.verboseAfter + 1 }
      else { s with verboseBefore := s.verboseBefore + 1 })
  | _ =>
    if s.given.any fun g => g.1 == o && g.2.1 == isBehind then .error .wrong
    else if o.needsPath && value.isEmpty then .error .wrong
    else .ok { s with given := (o, isBehind, value) :: s.given }

/-- A cluster of short options, given by their letters. -/
def cluster (s : State) : List Char → Except Refusal State
  | [] => .ok s
  | letter :: rest =>
    match Switch.short? s.verb letter with
    | none => .error .wrong
    | some o =>
      if o.takesValue then
        match rest with
        | [] => .ok { s with waiting := some o }
        | '=' :: value => s.give o (String.ofList value)
        | value => s.give o (String.ofList value)
      else
        match s.give o "" with
        | .ok s => cluster s rest
        | .error e => .error e

/-- A long option, given by what stands after its two dashes. -/
def longOption (s : State) (text : List Char) : Except Refusal State :=
  let name := String.ofList (text.takeWhile (· != '='))
  match Switch.long? s.verb name, text.dropWhile (· != '=') with
  | none, _ => .error .wrong
  | some o, '=' :: value =>
    if o.takesValue then s.give o (String.ofList value) else .error .wrong
  | some o, _ => if o.takesValue then .ok { s with waiting := some o } else s.give o ""

/-- An argument that is no option: the verb if there is none yet, and otherwise a path. -/
def plain (s : State) (text : String) : Except Refusal State :=
  match s.verb with
  | none =>
    if s.onlyPositional then .error .wrong
    else
      match text with
      | "instrument" => .ok { s with verb := some .instrument }
      | "parse" => .ok { s with verb := some .parse }
      | "directives" => .ok { s with verb := some .directives }
      | "help" => .error .help
      | _ => .error .wrong
  | some _ =>
    if text.isEmpty then .error .wrong else .ok { s with positional := s.positional ++ [text] }

/-- Whether an argument looks like an option. -/
def looksLikeOption (text : String) : Bool :=
  match text.toList with
  | '-' :: _ :: _ => true
  | _ => false

/-- Take one more argument. -/
def step (s : State) (text : String) : Except Refusal State :=
  match s.waiting with
  | some o =>
    if looksLikeOption text then .error .wrong else { s with waiting := none }.give o text
  | none =>
    if s.onlyPositional then s.plain text
    else
      match text.toList with
      | ['-', '-'] => .ok { s with onlyPositional := true }
      | '-' :: '-' :: name => s.longOption name
      | '-' :: letter :: letters => s.cluster (letter :: letters)
      | _ => s.plain text

def has (s : State) (o : Switch) : Bool :=
  s.given.any fun g => g.1 == o

def value? (s : State) (o : Switch) : Option String :=
  (s.given.find? fun g => g.1 == o).map fun g => g.2.2

/-- What the arguments ask for, when all have been taken. -/
def action? (s : State) : Option Action :=
  if s.waiting.isSome then none
  else
    match s.verb, s.positional with
    | some .instrument, p :: ps =>
      some (.instrument (p :: ps) (s.value? .outDir) (s.has .sourceMap) (s.value? .config)
        (s.value? .checker) (s.has .strict) (s.has .all))
    | some .parse, [file] => some (.parse file (s.has .pretty))
    | some .directives, [file] => some (.directives file)
    | _, _ => none

end State

/-- What a command line asks for. -/
def Request.read (arguments : List String) : Except Refusal Request :=
  match arguments.foldlM State.step State.start with
  | .error e => .error e
  | .ok s =>
    match s.action? with
    | some action =>
      let verbose := if s.verboseAfter = 0 then s.verboseBefore else s.verboseAfter
      .ok ⟨verbose, s.has .quiet, action⟩
    | none => .error .wrong

end Contracts.Command
