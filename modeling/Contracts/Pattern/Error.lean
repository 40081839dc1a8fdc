/-!
# What can be wrong with a pattern

Offsets are byte offsets into the text of the pattern.
-/

namespace Contracts

inductive PatternError where
  | empty
  | unclosedList (offset : Nat)
  | unexpectedClose (offset : Nat)
  | trailingInput (offset : Nat)
  | emptyList (offset : Nat)
  | invalidHead (offset : Nat)
  | unknownMatcher (name : String)
  /-- A matcher with the wrong number of arguments: how many it takes, in words, and how many it got. -/
  | arity (name wanted : String) (found : Nat)
  deriving DecidableEq, Repr

def PatternError.message : PatternError → String
  | .empty => "empty pattern"
  | .unclosedList offset => "unclosed '(' at offset " ++ toString offset
  | .unexpectedClose offset => "unexpected ')' at offset " ++ toString offset
  | .trailingInput offset => "unexpected input after pattern at offset " ++ toString offset
  | .emptyList offset => "empty list at offset " ++ toString offset
  | .invalidHead offset => "list head at offset " ++ toString offset ++ " must be a symbol"
  | .unknownMatcher name => "unknown matcher `" ++ name ++ "`"
  | .arity name wanted found =>
    "matcher `" ++ name ++ "` expects " ++ wanted ++ " argument(s), found " ++ toString found

end Contracts
