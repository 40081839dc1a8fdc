import Contracts.Syntax.Grammar.Cursor
import Contracts.Syntax.Grammar.Target
import Contracts.Syntax.Token.Describe

/-!
# Goals and contexts of the grammar

The rules of the grammar call each other through a function `self` that takes a goal and a context.
No rule is recursive by itself; the recursion is tied once, at the end, by a function from a bound
on the depth to such a `self`. This file also holds the blocks and bodies, which statements and
functions share, and the checks of words and literals that depend on the context.
-/

namespace Contracts

/-- The parts of a script that contain each other. -/
inductive Goal where
  | statement
  | expression
  | assignment
  | unary
  | newTarget
  | pattern
  deriving DecidableEq, Repr

/-- What it depends on which words are names. -/
structure Place where
  isStrict : Bool
  isAsync : Bool
  isGenerator : Bool
  inStaticBlock : Bool
  /-- Whether `arguments` is no variable, as in the fields of a class. -/
  inField : Bool
  deriving DecidableEq, Repr

namespace Place

/-- Outside of all functions. -/
def outermost : Place := ⟨false, false, false, false, false⟩

/-- Inside a function with the given modifiers; strict mode is handed down. -/
def enter (pl : Place) (m : Modifiers) : Place :=
  { isStrict := pl.isStrict, isAsync := m.async, isGenerator := m.generator, inStaticBlock := false
    inField := false }

/-- Inside an arrow function, which has no `arguments` of its own. -/
def enterArrow (pl : Place) (isAsync : Bool) : Place :=
  { pl.enter ⟨isAsync, false⟩ with inField := pl.inField }

/-- Inside the static block of a class. -/
def enterStaticBlock (pl : Place) : Place :=
  { pl.enter .plain with inStaticBlock := true, inField := true }

/-- In the value of a field of a class. -/
def field (pl : Place) : Place := { pl with inField := true }

def strict (pl : Place) : Place := { pl with isStrict := true }

/-- Whether a word that is a name elsewhere is none here. -/
def reserves (pl : Place) (text : String) : Bool :=
  (pl.isStrict && strictWords.contains text) || (pl.isGenerator && text == "yield") ||
    ((pl.isAsync || pl.inStaticBlock) && text == "await")

/-- The place after the first statement of a script or of a function, which may ask for strict
mode. -/
def after (pl : Place) (first : Tree) : Place :=
  { pl with isStrict := pl.isStrict || first.isUseStrict }

end Place

/-- What the meaning of a word or the place of a statement depends on. -/
structure Context extends Place where
  inFunction : Bool
  allowIn : Bool
  canBreak : Bool
  canContinue : Bool
  labels : List String
  deriving DecidableEq, Repr

namespace Context

/-- Outside of all functions. -/
def outermost : Context :=
  { toPlace := .outermost, inFunction := false, allowIn := true, canBreak := false
    canContinue := false, labels := [] }

/-- Inside a function with the given modifiers. -/
def enter (ctx : Context) (m : Modifiers) : Context :=
  { toPlace := ctx.toPlace.enter m, inFunction := true, allowIn := true, canBreak := false
    canContinue := false, labels := [] }

def enterArrow (ctx : Context) (isAsync : Bool) : Context :=
  { ctx.enter ⟨isAsync, false⟩ with toPlace := ctx.toPlace.enterArrow isAsync }

def enterStaticBlock (ctx : Context) : Context :=
  { ctx.enter .plain with toPlace := ctx.toPlace.enterStaticBlock }

def field (ctx : Context) : Context := { ctx with toPlace := ctx.toPlace.field }

def strict (ctx : Context) : Context := { ctx with toPlace := ctx.toPlace.strict }

def after (ctx : Context) (first : Tree) : Context := { ctx with toPlace := ctx.toPlace.after first }

def withIn (ctx : Context) : Context := { ctx with allowIn := true }

def inLoop (ctx : Context) : Context := { ctx with canBreak := true, canContinue := true }

/-- The name that a token stands for as a variable, if it can. -/
def name? (ctx : Context) (k : TokenKind) : Option String :=
  k.name?.filter fun text => !ctx.reserves text

end Context

/-- How the rules call each other. -/
abbrev Self := Goal → Context → Rule Tree

namespace Rule

/-- Take the mark `text`, which has to be there. -/
def expect (text : String) : Rule Unit := do
  if ← isAt text then advance
  else fault (.expected text (← kind).describe) (← spanHere)

/-- Take the word `text`, which has to be there. -/
def expectWord (text : String) : Rule Unit := do
  if ← isAtWord text then advance
  else fault (.expected text (← kind).describe) (← spanHere)

/-- Whether a statement may end here without a semicolon. -/
def mayEnd : Rule Bool := do
  let t ← current
  return t.kind == .endOfFile || t.kind.isPunctuator "\x7d" || t.afterBreak

/-- Take the end of a statement: a semicolon, or nothing where none is needed. -/
def endStatement (cause : TokenKind → Cause) : Rule Unit := do
  if ← isAt ";" then advance
  else if ← mayEnd then return
  else fault (cause (← kind)) (← spanHere)

/-- The end of a statement of which only a semicolon can follow. -/
def expectSemicolon : Rule Unit :=
  endStatement fun k => .expected ";" k.describe

/-- Elements with commas between them up to the mark `close`, which is not taken. A comma may follow
the last one. Where `endsHard` is set, the end of the file is reported as such. -/
def commaList (close : String) (endsHard : Bool) (item : Rule Tree) : Rule (List Tree) :=
  many (isAt close) do
    let t ← item
    if ← isAt close then return t
    else if endsHard && (← atEnd) then faultAtEnd
    else
      expect ","
      return t

/-- Take the brace that closes a body. One that is missing at the end of the file is only noted. -/
def closeBody : Rule Unit := do
  if ← atEnd then note (.expected "\x7d" TokenKind.endOfFile.describe) (← spanHere)
  else expect "\x7d"

/-- A block in braces. -/
def block (self : Self) (ctx : Context) (isStatement : Bool) : Rule Tree := do
  let start ← here
  expect "\x7b"
  let stop : Rule Bool := do return (← isAt "\x7d") || (← atEnd)
  let body ← many stop (self .statement ctx)
  closeBody
  finishNode start (.block isStatement) body

/-- Statements up to the place where `stop` holds, of which the first one may ask for strict mode. -/
def directedStatements (self : Self) (ctx : Context) (stop : Rule Bool) : Rule (List Tree) := do
  if ← stop then return []
  else
    let first ← self .statement ctx
    let others ← many stop (self .statement (ctx.after first))
    return first :: others

/-- The body of a function in braces. A body can ask for strict mode only if all parameters are
names. -/
def functionBody (self : Self) (ctx : Context) (hasNamesOnly : Bool) : Rule Tree := do
  let start ← here
  expect "\x7b"
  let stop : Rule Bool := do return (← isAt "\x7d") || (← atEnd)
  let body ← directedStatements self ctx stop
  closeBody
  let t ← finishNode start (.block false) body
  if !hasNamesOnly && body.head?.any Tree.isUseStrict then note .strictWithPatterns t.span
  return t

/-- Check a word as a name that is neither a property nor a variable that is only used. -/
def checkName (ctx : Context) (text : String) (span : Span) : Rule Unit := do
  if ctx.isStrict && strictWords.contains text then note (.nameInStrict text) span
  if (ctx.isGenerator && text == "yield") || (ctx.inStaticBlock && text == "await") then
    fault .nameExpected span
  else if ctx.isAsync && text == "await" then fault .nameInAsync span

/-- Check the name of something that is bound. -/
def checkBinding (ctx : Context) (text : String) (span : Span) : Rule Unit := do
  checkName ctx text span
  if ctx.isStrict && (text == "eval" || text == "arguments") then note .targetInStrict span

/-- Check a number, which may be written in base eight only outside of strict mode. -/
def checkNumber (ctx : Context) (text : String) (span : Span) : Rule Unit := do
  let digits := text.toList
  if ctx.isStrict && digits.head? == some '0' && digits.tail.head?.any Char.isDigit then
    note (if digits.all Text.Quoted.isOctalDigit then .octalInStrict else .decimalInStrict) span

/-- Check the escapes of a string literal, which may be in base eight only outside of strict mode. -/
def checkText (ctx : Context) (text : String) (span : Span) : Rule Unit := do
  if ctx.isStrict && (Token.textFault? false span.lo text.toList).isSome then
    note .octalInStrict span

/-- A name, which has to be there, as a node that is not an expression. -/
def name (check : String → Span → Rule Unit) : Rule Tree := do
  let start ← here
  let t ← current
  match t.kind.name? with
  | some text =>
    check text t.span
    advance
    finishNode start (.name text) []
  | none => if ← atEnd then faultAtEnd else fault .nameExpected (← spanHere)

/-- Any word, keywords included, as a node that is not an expression. -/
def anyName : Rule Tree := do
  let start ← here
  match ← kind with
  | .word text _ =>
    advance
    finishNode start (.name text) []
  | .privateName text =>
    advance
    finishNode start (.privateName text) []
  | .endOfFile => faultAtEnd
  | _ => fault .nameExpected (← spanHere)

end Rule

end Contracts
