import Contracts.Number.Numeral
import Contracts.Syntax.Token
import Contracts.Text.Quoted

/-!
# How a token is named in a message

Words and marks are named by their text, literals by their kind, value and text.
-/

namespace Contracts

def TokenKind.describe : TokenKind → String
  | .word text _ => text
  | .privateName text => "#" ++ text
  | .number text =>
    "numeric literal (" ++ Number.display (Number.value text) ++ ", " ++ text ++ ")"
  | .bigint text =>
    "bigint literal (" ++ toString (Number.wholeValue text) ++ ", " ++ text ++ ")"
  | .string text => "string literal (" ++ Text.Quoted.value text ++ ", " ++ text ++ ")"
  | .regex text => "regexp literal (" ++ text ++ ")"
  | .punctuator text => text
  | .substitution => "$\x7b"
  | .endOfFile => "<eof>"

end Contracts
