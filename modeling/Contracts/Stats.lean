/-!
# Statistics

For each of the three kinds of functions that can be wrapped, how many were met and how many of them
had a signature.
-/

namespace Contracts

/-- The kinds of functions that are counted. -/
inductive SiteKind where
  | declaration
  | initializer
  | returned
  deriving DecidableEq, Repr

structure Tally where
  matched : Nat
  total : Nat
  deriving DecidableEq, Repr

namespace Tally

def zero : Tally := ⟨0, 0⟩

/-- Count one more, with a signature or without. -/
def record (t : Tally) (isMatched : Bool) : Tally :=
  ⟨if isMatched then t.matched + 1 else t.matched, t.total + 1⟩

def text (t : Tally) : String :=
  toString t.matched ++ " / " ++ toString t.total

end Tally

structure Stats where
  declarations : Tally
  initializers : Tally
  returns : Tally
  deriving DecidableEq, Repr

namespace Stats

def zero : Stats := ⟨.zero, .zero, .zero⟩

def get (s : Stats) : SiteKind → Tally
  | .declaration => s.declarations
  | .initializer => s.initializers
  | .returned => s.returns

def record (s : Stats) (kind : SiteKind) (isMatched : Bool) : Stats :=
  match kind with
  | .declaration => { s with declarations := s.declarations.record isMatched }
  | .initializer => { s with initializers := s.initializers.record isMatched }
  | .returned => { s with returns := s.returns.record isMatched }

/-- The report, a line for each kind. -/
def lines (s : Stats) : List String :=
  ["Function declarations: " ++ s.declarations.text,
    "Var function expression: " ++ s.initializers.text,
    "Return function expression: " ++ s.returns.text]

def report (s : Stats) : String :=
  String.intercalate "\n" s.lines

end Stats

end Contracts
