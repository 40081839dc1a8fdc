import Contracts.Syntax.Comment
import Contracts.Text.Basic

/-!
# Directives in comments

A comment that starts with the marker `typify:` declares a type to the checker. There are three
forms:

* `type Name = definition`, with the definition up to the end of the comment, on one line;
* `instance Name`;
* `adt Name`, followed on lines of their own by fields `name: type`.

A comment with the marker that fits none of the forms is no directive, and a form of the third kind
with a line that is no field is an error.
-/

namespace Contracts

inductive DirectiveKind where
  /-- A name for a type that is written out. -/
  | synonym (name definition : String)
  /-- The instances of a constructor function. -/
  | instances (name : String)
  /-- A choice between fields, each with its type, in the order of their first appearance. -/
  | choice (name : String) (fields : List (String × String))
  deriving DecidableEq, Repr

structure Directive where
  kind : DirectiveKind
  /-- The span of the comment. -/
  span : Span
  deriving DecidableEq, Repr

inductive DirectiveError where
  | malformedField (name line : String) (span : Span)
  deriving DecidableEq, Repr

namespace DirectiveError

def message : DirectiveError → String
  | .malformedField name line _ =>
    "malformed field in adt `" ++ name ++ "`: `" ++ line ++ "` (expected `name: type`)"

def span : DirectiveError → Span
  | .malformedField _ _ span => span

end DirectiveError

namespace DirectiveKind

def name : DirectiveKind → String
  | .synonym name _ | .instances name | .choice name _ => name

/-- The member of the checker that the directive calls. -/
def method : DirectiveKind → String
  | .synonym _ _ => "alias"
  | .instances _ => "instance"
  | .choice _ _ => "adt"

end DirectiveKind

namespace Directive

def marker : List Char := "typify:".toList

/-- Whether a comment is addressed to the checker. -/
def isAddressed (text : List Char) : Bool :=
  (Text.after? marker (Text.trimLeft text)).isSome

/-- What follows `word` and at least one blank. -/
def afterKeyword? (word cs : List Char) : Option (List Char) :=
  match Text.after? word cs with
  | some rest =>
    let trimmed := Text.trimLeft rest
    if trimmed.length < rest.length then some trimmed else none
  | none => none

def isNameStart (c : Char) : Bool :=
  c.isAlpha || c == '_'

def isNamePart (c : Char) : Bool :=
  c.isAlphanum || c == '_'

/-- A name of ASCII letters, digits and bars at the start of a text, and what follows it. -/
def splitName? : List Char → Option (List Char × List Char)
  | [] => none
  | c :: cs =>
    if isNameStart c then some (c :: cs.takeWhile isNamePart, cs.dropWhile isNamePart) else none

/-- A name, a blank or more, an equals sign, and a definition on the same line. -/
def readSynonym? (cs : List Char) : Option DirectiveKind := do
  let (name, rest) ← splitName? cs
  let afterName := Text.trimLeft rest
  if afterName.length = rest.length then none
  else
    let afterSign ← Text.after? ['='] afterName
    let definition := afterSign.dropWhile fun c => Text.isBlank c && !Text.isLineBreak c
    if definition.any Text.isLineBreak then none
    else some (.synonym (String.ofList name) (String.ofList definition))

/-- A name and nothing else. -/
def readInstances? (cs : List Char) : Option DirectiveKind := do
  let (name, rest) ← splitName? cs
  if rest.all Text.isBlank then some (.instances (String.ofList name)) else none

/-- A name, a colon and a type that is not blank. -/
def readField? (line : List Char) : Option (String × String) := do
  let (name, rest) ← splitName? line
  let type := Text.trim (← Text.after? [':'] (Text.trimLeft rest))
  if type.isEmpty then none else some (String.ofList name, String.ofList type)

/-- Set a field; one that is set again keeps its place. -/
def setField (fields : List (String × String)) (name type : String) : List (String × String) :=
  if fields.any fun f => f.1 == name then
    fields.map fun f => if f.1 == name then (name, type) else f
  else fields ++ [(name, type)]

/-- The fields of lines, or the first line that is no field. -/
def readFields (fields : List (String × String)) :
    List (List Char) → Except (List Char) (List (String × String))
  | [] => .ok fields
  | line :: lines =>
    match readField? line with
    | some (name, type) => readFields (setField fields name type) lines
    | none => .error line

/-- The text before the first line feed, and after it. -/
def splitHeader (cs : List Char) : List Char × List Char :=
  (Text.splitAt? ['\n'] cs).getD (cs, [])

/-- A name, and fields on lines of their own. -/
def readChoice (span : Span) (cs : List Char) : Except DirectiveError (Option DirectiveKind) :=
  match splitName? cs with
  | none => .ok none
  | some (name, rest) =>
    let (header, body) := splitHeader rest
    if header.all Text.isBlank then
      let lines := ((Text.lines body).map Text.trim).filter fun line => !line.isEmpty
      match readFields [] lines with
      | .error line => .error (.malformedField (String.ofList name) (String.ofList line) span)
      | .ok [] => .ok none
      | .ok fields => .ok (some (.choice (String.ofList name) fields))
    else .ok none

/-- The directive form of a text after the marker. -/
def readKind (span : Span) (body : List Char) : Except DirectiveError (Option DirectiveKind) :=
  match afterKeyword? "type".toList body with
  | some rest => .ok (readSynonym? rest)
  | none =>
    match afterKeyword? "instance".toList body with
    | some rest => .ok (readInstances? rest)
    | none =>
      match afterKeyword? "adt".toList body with
      | some rest => readChoice span rest
      | none => .ok none

/-- The directive of a text at a span, if it is one. -/
def read (text : List Char) (span : Span) : Except DirectiveError (Option Directive) :=
  match Text.after? marker (Text.trimLeft text) with
  | none => .ok none
  | some rest =>
    match readKind span (Text.trimLeft rest) with
    | .error e => .error e
    | .ok kind => .ok (kind.map fun k => ⟨k, span⟩)

/-- What a list of comments declares: the directives, the errors, and the comments that are addressed
to the checker and fit no form. -/
structure Collected where
  directives : List Directive
  errors : List DirectiveError
  unrecognized : List Comment
  deriving DecidableEq, Repr

def Collected.empty : Collected := ⟨[], [], []⟩

/-- Add what one comment declares. -/
def Collected.add (found : Collected) (c : Comment) : Collected :=
  if isAddressed c.text.toList then
    match read c.text.toList c.span with
    | .ok (some d) => { found with directives := found.directives ++ [d] }
    | .ok none => { found with unrecognized := found.unrecognized ++ [c] }
    | .error e => { found with errors := found.errors ++ [e] }
  else found

def collect (comments : List Comment) : Collected :=
  comments.foldl Collected.add .empty

end Directive

end Contracts
