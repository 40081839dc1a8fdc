import Contracts.Syntax.Comment
import Contracts.Text.Basic

/-!
# Signatures in comments

A comment that holds two colons carries the signature of the function it leads: what follows the
first two colons, without blanks around it, up to the end of its line. Only the first such comment
counts, even if nothing follows its colons.
-/

namespace Contracts.Signature

def mark : List Char := [':', ':']

/-- What follows the first mark in a text. -/
def afterMark? (cs : List Char) : Option (List Char) :=
  (Text.splitAt? mark cs).map Prod.snd

/-- The signature at the start of a text: blanks are skipped, line ends included, and the rest of the
line is taken without the blanks at its end. -/
def ofRest (cs : List Char) : List Char :=
  Text.trimRight ((Text.trimLeft cs).takeWhile fun c => !Text.isLineBreak c)

/-- The signature that a list of comments carries. -/
def find? (comments : List Comment) : Option String :=
  match comments.findSome? fun c => afterMark? c.text.toList with
  | none => none
  | some rest =>
    let signature := ofRest rest
    if signature.isEmpty then none else some (String.ofList signature)

end Contracts.Signature
