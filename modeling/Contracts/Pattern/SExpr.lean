import Contracts.Pattern.Error
import Contracts.Text.Basic

/-!
# S-expressions

Patterns are written as s-expressions: a symbol is a run of characters that are neither blank nor
parentheses, and a list is s-expressions in parentheses. Every s-expression knows the byte offset at
which it stands.

A text is cut into lexemes by recursion on its characters, carrying the symbol that is being read
along backwards. The lexemes are put together by recursion on their list, with a stack of the lists
that are still open, the innermost first.
-/

namespace Contracts

inductive SExpr where
  | symbol (name : String) (offset : Nat)
  | list (items : List SExpr) (offset : Nat)
  deriving Repr

namespace SExpr

def offset : SExpr → Nat
  | .symbol _ offset | .list _ offset => offset

inductive Lexeme where
  | symbol (name : String) (offset : Nat)
  | opening (offset : Nat)
  | closing (offset : Nat)
  deriving DecidableEq, Repr

def Lexeme.offset : Lexeme → Nat
  | .symbol _ offset | .opening offset | .closing offset => offset

/-- The symbol whose characters are given backwards, if there are any. -/
def symbolOf (run : List Char) (start : Nat) : List Lexeme :=
  if run.isEmpty then [] else [.symbol (String.ofList run.reverse) start]

/-- The lexemes of a text from `offset` on, after the characters `run` of a symbol that starts at
`start`. -/
def lexemesFrom (run : List Char) (start offset : Nat) : List Char → List Lexeme
  | [] => symbolOf run start
  | c :: cs =>
    let next := offset + c.utf8Size
    if Text.isBlank c then symbolOf run start ++ lexemesFrom [] next next cs
    else if c = '(' then symbolOf run start ++ .opening offset :: lexemesFrom [] next next cs
    else if c = ')' then symbolOf run start ++ .closing offset :: lexemesFrom [] next next cs
    else lexemesFrom (c :: run) (if run.isEmpty then offset else start) next cs

def lexemes (cs : List Char) : List Lexeme :=
  lexemesFrom [] 0 0 cs

/-- A list that is still open: where it stands, and its items so far backwards. -/
structure Frame where
  offset : Nat
  items : List SExpr

/-- What is done next: read on in the innermost open list, or, if there is none, end with the
s-expression that was read. -/
inductive Delivery where
  | within (stack : List Frame)
  | complete (e : SExpr)

/-- Hand a finished s-expression to the innermost open list. -/
def deliver (e : SExpr) : List Frame → Delivery
  | [] => .complete e
  | frame :: stack => .within ({ frame with items := e :: frame.items } :: stack)

/-- Put lexemes together. -/
def ofLexemes (stack : List Frame) : List Lexeme → Except PatternError SExpr
  | [] =>
    match stack with
    | [] => .error .empty
    | frame :: _ => .error (.unclosedList frame.offset)
  | .opening offset :: ls => ofLexemes (⟨offset, []⟩ :: stack) ls
  | .closing offset :: ls =>
    match stack with
    | [] => .error (.unexpectedClose offset)
    | frame :: stack =>
      match deliver (.list frame.items.reverse frame.offset) stack with
      | .within stack => ofLexemes stack ls
      | .complete e => finish e ls
  | .symbol name offset :: ls =>
    match deliver (.symbol name offset) stack with
    | .within stack => ofLexemes stack ls
    | .complete e => finish e ls
where
  /-- Nothing may follow a complete s-expression. -/
  finish (e : SExpr) : List Lexeme → Except PatternError SExpr
    | [] => .ok e
    | l :: _ => .error (.trailingInput l.offset)

/-- Read exactly one s-expression. -/
def read (cs : List Char) : Except PatternError SExpr :=
  ofLexemes [] (lexemes cs)

end SExpr

end Contracts
