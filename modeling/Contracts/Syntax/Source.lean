import Contracts.Syntax.Grammar.Script
import Contracts.Text.Escaped

/-!
# Source files

A source is a file name and a text. A byte order mark in front of the text is dropped before anything
else happens. The first character is at position one, and `Source.offset` takes a position back to a
byte offset into the text.

Reading a source gives its script and its comments, or an error that is placed by byte offsets. A
fault that is reported at the end of the text or after it is always the same error, whatever its
cause: the file has ended too early.
-/

namespace Contracts

/-- A stretch of bytes, the end not included. -/
structure ByteRange where
  start : Nat
  stop : Nat
  deriving DecidableEq, Repr

structure Source where
  file : String
  text : List Char
  /-- The number of bytes of the text. -/
  length : Nat
  length_eq : length = Text.byteLength text
  deriving DecidableEq, Repr

namespace Source

/-- A source of a text that has no byte order mark in front. -/
def ofText (file : String) (text : List Char) : Source :=
  ⟨file, text, Text.byteLength text, rfl⟩

/-- A source from the contents of a file. -/
def ofContents (file contents : String) : Source :=
  match contents.toList with
  | '\ufeff' :: cs => ofText file cs
  | cs => ofText file cs

/-- Whether a position lies in the file, its end included. -/
def contains (s : Source) (position : Nat) : Bool :=
  1 ≤ position && position ≤ s.length + 1

/-- The byte offset of a position; positions outside of the file are moved to its nearer end. -/
def offset (s : Source) (position : Nat) : Nat :=
  min (position - 1) s.length

/-- The bytes of a span; a span that ends before it starts is empty. -/
def range (s : Source) (span : Span) : ByteRange :=
  ⟨s.offset span.lo, max (s.offset span.hi) (s.offset span.lo)⟩

/-- A one-line description, for messages. -/
def describe (s : Source) : String :=
  "SourceContext \x7b file: " ++ Text.escaped s.file ++ ", len: " ++ toString s.length ++ " \x7d"

theorem offset_le_length (s : Source) (position : Nat) : s.offset position ≤ s.length := by
  unfold offset
  omega

theorem range_start_le_stop (s : Source) (span : Span) :
    (s.range span).start ≤ (s.range span).stop := by
  simp only [range]
  omega

theorem range_stop_le_length (s : Source) (span : Span) : (s.range span).stop ≤ s.length := by
  simp only [range, offset]
  omega

end Source

/-- Why a source is no script. -/
inductive ParseError where
  | malformed (message : String) (range : ByteRange)
  | unexpectedEnd (range : ByteRange)
  deriving DecidableEq, Repr

namespace ParseError

def message : ParseError → String
  | .malformed message _ => message
  | .unexpectedEnd _ => "unexpected end of file"

def range : ParseError → ByteRange
  | .malformed _ range | .unexpectedEnd range => range

/-- The error of a fault in a source. -/
def ofFault (s : Source) (fault : Fault) : ParseError :=
  let range := s.range fault.span
  if s.length ≤ range.start then .unexpectedEnd range else .malformed fault.cause.message range

end ParseError

/-- A source that has been read: where it comes from, its script and its comments. -/
structure Parsed where
  source : Source
  script : Script
  comments : List Comment
  deriving DecidableEq, Repr

/-- Read a source. The comments are in the order of the file. -/
def Source.parse (s : Source) : Except ParseError Parsed :=
  match ParsedScript.read s.text with
  | .ok p => .ok ⟨s, p.script, p.comments⟩
  | .error fault => .error (.ofFault s fault)

theorem Source.exists_parse_eq_ok {s : Source} {test : Parsed → Bool}
    (h : s.parse.toOption.any test = true) : ∃ p, s.parse = .ok p ∧ test p = true := by
  cases hparse : s.parse with
  | error e =>
      rw [hparse] at h
      exact absurd h (by simp [Except.toOption])
  | ok p =>
      rw [hparse] at h
      exact ⟨p, rfl, by simpa [Except.toOption] using h⟩

end Contracts
