import Contracts.Syntax.Grammar.Statements

/-!
# Scripts

The recursion of the grammar is tied here: `Rule.atDepth n` is the grammar in which goals may be
nested `n` deep. A goal asks for at most three other goals before it takes a token, so four times the
length of the text, and a few more, is deep enough for every text.
-/

namespace Contracts

/-- The rule of each goal. -/
def Rule.ofGoal (self : Self) : Self
  | .statement, ctx => Rule.statement self ctx
  | .expression, ctx => Rule.expression self ctx
  | .assignment, ctx => Rule.assignment self ctx
  | .unary, ctx => Rule.unary self ctx
  | .newTarget, ctx => Rule.chain self ctx false
  | .pattern, ctx => Rule.pattern self ctx

def Rule.atDepth : Nat → Self
  | 0, _, _ => Rule.faultAtEnd
  | n + 1, goal, ctx => Rule.ofGoal (Rule.atDepth n) goal ctx

/-- A script and the comments in it. -/
structure ParsedScript where
  script : Script
  comments : List Comment
  deriving DecidableEq, Repr

/-- The statements of a script up to the end of the file. The first one may ask for strict mode. -/
def Rule.statements (depth : Nat) : Rule (List Tree) :=
  Rule.directedStatements (Rule.atDepth depth) .outermost Rule.atEnd

/-- Read a script. A fault that ends the reading counts before one after which reading went on, and
of those the first one counts. -/
def ParsedScript.read (cs : List Char) : Except Fault ParsedScript := do
  let (interpreter, cursor) ← Cursor.start cs
  let (body, finish) ← (Rule.statements (4 * cs.length + 16)).run cursor
  match finish.minor.getLast? with
  | some fault => throw fault
  | none =>
    let start := if interpreter.isSome then 1 else cursor.token.span.lo
    let span : Span := if finish.finish = 0 then ⟨1, 1⟩ else ⟨start, finish.finish⟩
    return ⟨⟨span, interpreter, body⟩, finish.comments.reverse⟩

end Contracts
