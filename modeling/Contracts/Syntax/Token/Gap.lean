import Contracts.Syntax.Comment
import Contracts.Syntax.Fault
import Contracts.Syntax.Token

/-!
# What stands between two tokens

A gap is the white space and the comments between two tokens, or before the first or after the last
one. It is read character by character, by recursion on the text; the reader carries along whether a
line has ended so far in the gap, and, inside a comment, the text read of it backwards.

Which of the two tokens a comment belongs to is decided afterwards, in `Gap.attach`, from what the
reader noted about the comment and from the token before the gap.

The comments of old web browsers, from `<!--` or `-->` to the end of the line, are left out: such
marks are read as operators.
-/

namespace Contracts

/-- A comment in a gap, with what its attachment depends on. -/
structure LooseComment where
  kind : CommentKind
  text : String
  span : Span
  /-- Whether a line had ended in the gap before the comment. -/
  isBroken : Bool
  /-- Whether a semicolon is the next thing after the comment. -/
  beforeSemicolon : Bool
  deriving DecidableEq, Repr

structure Gap where
  comments : List LooseComment
  /-- Whether a line ends anywhere in the gap. -/
  isBroken : Bool
  /-- Where the gap ends. -/
  position : Nat
  /-- The text after the gap. -/
  rest : List Char
  /-- The fault of a comment that is not closed. -/
  minor : Option Fault

namespace Gap

/-- Where in a gap the reader is. -/
inductive Mode where
  | space
  | line (start : Nat) (text : List Char)
  | block (start : Nat) (text : List Char)

def semicolonFollows (cs : List Char) : Bool :=
  (cs.dropWhile fun c => isSpace c || Text.isLineBreak c).head? == some ';'

/-- The comment that ends at `finish`, its text given backwards. -/
def close (kind : CommentKind) (start finish : Nat) (text : List Char) (isBroken : Bool)
    (rest : List Char) : LooseComment :=
  { kind := kind
    text := String.ofList text.reverse
    span := ⟨start, finish⟩
    isBroken := isBroken
    beforeSemicolon := kind == .block && semicolonFollows rest }

/-- Whether a line ends within a comment's text. -/
def breaksLine (text : List Char) : Bool :=
  text.any Text.isLineBreak

/-- Read a gap. `seen` holds the finished comments backwards. -/
def readFrom (seen : List LooseComment) (isBroken : Bool) (position : Nat) :
    Mode → List Char → Gap
  | .space, '/' :: '/' :: cs => readFrom seen isBroken (position + 2) (.line position []) cs
  | .space, '/' :: '*' :: cs => readFrom seen isBroken (position + 2) (.block position []) cs
  | .space, c :: cs =>
    if Text.isLineBreak c then readFrom seen true (position + c.utf8Size) .space cs
    else if isSpace c then readFrom seen isBroken (position + c.utf8Size) .space cs
    else ⟨seen.reverse, isBroken, position, c :: cs, none⟩
  | .space, [] => ⟨seen.reverse, isBroken, position, [], none⟩
  | .line start text, c :: cs =>
    if Text.isLineBreak c then
      readFrom (close .line start position text isBroken cs :: seen) true
        (position + c.utf8Size) .space cs
    else readFrom seen isBroken (position + c.utf8Size) (.line start (c :: text)) cs
  | .line start text, [] =>
    ⟨(close .line start position text isBroken [] :: seen).reverse, isBroken, position, [], none⟩
  | .block start text, '*' :: '/' :: cs =>
    readFrom (close .block start (position + 2) text isBroken cs :: seen)
      (isBroken || breaksLine text) (position + 2) .space cs
  | .block start text, c :: cs =>
    readFrom seen isBroken (position + c.utf8Size) (.block start (c :: text)) cs
  | .block _ _, [] =>
    ⟨seen.reverse, isBroken, position, [], some ⟨.unterminatedComment, ⟨position, position⟩⟩⟩

/-- Read the gap that starts at `position`; `isBroken` says whether a line counts as ended before. -/
def read (isBroken : Bool) (position : Nat) (cs : List Char) : Gap :=
  readFrom [] isBroken position .space cs

/-- Whether a comment belongs to the token after the gap. A line comment does if a line has ended
before it or if the token before is a binary operator; a block comment does if a line has ended
before it or if the token before holds no trailing comment, unless a semicolon comes next. -/
def leadsNext (before : Option TokenKind) (c : LooseComment) : Bool :=
  match c.kind with
  | .line => c.isBroken || before.any TokenKind.isBinaryOperator
  | .block => (c.isBroken || !before.any TokenKind.holdsTrailingComment) && !c.beforeSemicolon

/-- The comments of a gap with their anchors. `before` is the token before the gap, if there is one,
and `finish` the position where it ends; `next` is the token after it. At the end of the file nothing
can be led, so that comments trail the last token, or lead the first position if there is none. -/
def attach (before : Option TokenKind) (finish : Nat) (next : Token) (comments : List LooseComment) :
    List Comment :=
  comments.map fun c =>
    let anchor : Anchor :=
      if next.kind == .endOfFile then
        if before.isNone && finish == 0 then .leading 1 else .trailing finish
      else if leadsNext before c then .leading next.span.lo
      else .trailing finish
    ⟨c.kind, c.text, c.span, anchor⟩

end Gap

end Contracts
