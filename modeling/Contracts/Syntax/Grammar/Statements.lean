import Contracts.Syntax.Grammar.Expressions

/-!
# Statements

Each statement is recognized by its first word, and what starts with none of those words is an
expression. A statement ends with a semicolon, which may be left out before a closing brace, before
the end of the file, and where a line ends.
-/

namespace Contracts.Rule

/-- An expression in parentheses after a keyword. -/
def condition (self : Self) (ctx : Context) : Rule Tree := do
  expect "("
  let e ← self .expression ctx.withIn
  expect ")"
  return e

/-- A statement after a label, where a jump without a label may stand too. -/
def labeled (self : Self) (ctx : Context) (text : String) : Rule Tree := do
  let start ← here
  let label ← name (checkName ctx)
  expect ":"
  if ctx.labels.contains text then note (.labelRepeated text) label.span
  let body ← self .statement { ctx with canBreak := true, labels := text :: ctx.labels }
  finishNode start .labeled [label, body]

def expressionStatement (self : Self) (ctx : Context) : Rule Tree := do
  let start ← here
  let e ← self .expression ctx.withIn
  endStatement fun _ => .statementEndExpected
  finishNode start .expressionStatement [e]

/-- A statement that starts with none of the keywords of statements: one after a label, or an
expression. -/
def openStatement (self : Self) (ctx : Context) : Rule Tree := do
  match ctx.name? (← kind) with
  | some text =>
    if (← peek).kind.isPunctuator ":" then labeled self ctx text
    else expressionStatement self ctx
  | none => if ← atEnd then faultAtEnd else expressionStatement self ctx

/-- A statement in a place where no declaration may stand. -/
def branch (self : Self) (ctx : Context) : Rule Tree := do
  let t ← current
  match t.kind with
  | .word "function" false | .word "class" false =>
    note .declarationNotAllowed t.span
    self .statement ctx
  | .word "const" false => fault .expressionExpected t.span
  | .word "let" false => openStatement self ctx
  | _ => self .statement ctx

/-- Check a declarator that has no value. Constants and patterns need one, except in the head of a
loop over something. -/
def checkValueless (kind : VariableKind) (inHead : Bool) (t : Tree) : Rule Unit := do
  if inHead && ((← isAtWord "of") || (← isAtWord "in")) then return
  else if kind == .constant && !inHead then note .constantWithoutValue t.span
  else
    match t.children with
    | .node (.binding _) _ _ :: _ => return
    | _ => fault .patternWithoutValue t.span

/-- A declarator: a pattern and possibly its initializer. -/
def declarator (self : Self) (ctx : Context) (kind : VariableKind) (inHead : Bool) : Rule Tree := do
  let start ← here
  if kind != .var && (← isAtWord "let") then fault .nameIsLet (← spanHere)
  let p ← self .pattern ctx
  if ← take? "=" then
    let init ← self .assignment ctx
    finishNode start .declarator [p, init]
  else
    let t ← finishNode start .declarator [p, Tree.absent]
    checkValueless kind inHead t
    return t

/-- Declarators with commas between them. -/
def declarators (self : Self) (ctx : Context) (kind : VariableKind) (inHead : Bool) :
    Rule (List Tree) := do
  let first ← declarator self ctx kind inHead
  let rest ← many (do return !(← isAt ",")) do
    advance
    declarator self ctx kind inHead
  return first :: rest

/-- Take the end of a declaration. Where there is none, that is noted, and what follows is passed over
up to a place where a statement may end. -/
def endDeclaration (self : Self) (ctx : Context) : Rule Unit := do
  let isEnd : Rule Bool := do return (← isAt ";") || (← mayEnd)
  if ← isEnd then
    let _ ← take? ";"
  else
    note .semicolonExpected (← spanHere)
    tryCatch (do let _ ← self .expression ctx.withIn) fun _ => return
    let _ ← many isEnd do
      advance
      return Tree.absent
    let _ ← take? ";"

def variableStatement (self : Self) (ctx : Context) (kind : VariableKind) : Rule Tree := do
  let start ← here
  advance
  let ds ← declarators self ctx.withIn kind false
  endDeclaration self ctx
  finishNode start (.variableStatement kind) ds

def ifStatement (self : Self) (ctx : Context) : Rule Tree := do
  let start ← here
  advance
  let test ← condition self ctx
  let yes ← branch self ctx
  let no ← if ← takeWord? "else" then branch self ctx else pure Tree.absent
  finishNode start .ifStatement [test, yes, no]

/-- The three parts of the head of a `for` from the first semicolon on, and the body. -/
def forRest (self : Self) (ctx : Context) (start : Nat) (init : Tree) : Rule Tree := do
  expect ";"
  let test ← if ← isAt ";" then pure Tree.absent else self .expression ctx.withIn
  expect ";"
  let update ← if ← isAt ")" then pure Tree.absent else self .expression ctx.withIn
  expect ")"
  let body ← branch self ctx.inLoop
  finishNode start .forStatement [init, test, update, body]

/-- A loop over a sequence or over an object from the keyword `of` or `in` on; nothing is taken if
neither is there. -/
def forEachRest? (self : Self) (ctx : Context) (start : Nat) (isAwait : Bool) (left : Tree) :
    Rule (Option Tree) := do
  if ← takeWord? "of" then
    let right ← self .assignment ctx.withIn
    expect ")"
    let body ← branch self ctx.inLoop
    return some (← finishNode start (.forOf isAwait) [left, right, body])
  else if ← takeWord? "in" then
    let right ← self .expression ctx.withIn
    expect ")"
    let body ← branch self ctx.inLoop
    return some (← finishNode start .forIn [left, right, body])
  else return none

/-- Check the declarators of a loop over something. There has to be just one, and in a loop over a
sequence it has no initializer. -/
def checkLoopVariables (ds : List Tree) : Rule Unit := do
  match ds with
  | [.node _ _ [p, init]] =>
    if (← isAtWord "of") && !init.isAbsent then note .loopVariableWithValue p.span
  | _ =>
    if (← isAtWord "of") || (← isAtWord "in") then
      (ds.drop 1).forM fun d => note .loopVariableRepeated ((d.children.headD d).span)

/-- The kind of variables that a declaration starting here declares. `let` is a name unless a name
or a pattern follows. -/
def variableKind? : Rule (Option VariableKind) := do
  match ← kind with
  | .word "var" false => return some .var
  | .word "const" false => return some .constant
  | .word "let" false =>
    let after := (← peek).kind
    let declares := after.isPunctuator "[" || after.isPunctuator "\x7b" ||
      (after.name?.isSome && !after.isWord "of")
    return if declares then some .lexical else none
  | _ => return none

def forStatement (self : Self) (ctx : Context) : Rule Tree := do
  let start ← here
  advance
  let isAwait ← takeWord? "await"
  expect "("
  let headStart ← here
  let headCtx : Context := { ctx with allowIn := false }
  if ← isAt ";" then forRest self ctx start Tree.absent
  else
    match ← variableKind? with
    | some kind =>
      advance
      let ds ← declarators self headCtx kind true
      checkLoopVariables ds
      let head ← finishNode headStart (.variableHead kind) ds
      match ← forEachRest? self ctx start isAwait head with
      | some t => return t
      | none => forRest self ctx start head
    | none =>
      let e ← self .expression headCtx
      if (← isAtWord "of") || (← isAtWord "in") then
        match e.toPattern with
        | none => fault .invalidTarget e.span
        | some p =>
          match ← forEachRest? self ctx start isAwait p with
          | some t => return t
          | none => return p
      else forRest self ctx start e

def whileStatement (self : Self) (ctx : Context) : Rule Tree := do
  let start ← here
  advance
  let test ← condition self ctx
  let body ← branch self ctx.inLoop
  finishNode start .whileStatement [test, body]

def doWhile (self : Self) (ctx : Context) : Rule Tree := do
  let start ← here
  advance
  let body ← branch self ctx.inLoop
  expectWord "while"
  let test ← condition self ctx
  let _ ← take? ";"
  finishNode start .doWhile [test, body]

/-- One case of a `switch` with its statements. -/
def switchCase (self : Self) (ctx : Context) : Rule Tree := do
  let start ← here
  let value ←
    if ← takeWord? "case" then self .expression ctx.withIn
    else
      expectWord "default"
      pure Tree.absent
  expect ":"
  let stop : Rule Bool := do
    return (← isAt "\x7d") || (← atEnd) || (← isAtWord "case") || (← isAtWord "default")
  let body ← many stop (self .statement ctx)
  finishNode start .switchCase (value :: body)

def switchStatement (self : Self) (ctx : Context) : Rule Tree := do
  let start ← here
  advance
  let value ← condition self ctx
  expect "\x7b"
  let stop : Rule Bool := do return !(← isAtWord "case") && !(← isAtWord "default")
  let cases ← many stop (switchCase self { ctx with canBreak := true })
  expect "\x7d"
  finishNode start .switchStatement (value :: cases)

def catchClause (self : Self) (ctx : Context) : Rule Tree := do
  let start ← here
  advance
  let parameter ←
    if ← take? "(" then do
      let p ← self .pattern ctx
      expect ")"
      pure p
    else pure Tree.absent
  let body ← block self ctx false
  finishNode start .catchClause [parameter, body]

def tryStatement (self : Self) (ctx : Context) : Rule Tree := do
  let start ← here
  advance
  let body ← block self ctx false
  let place ← here
  let handler ← if ← isAtWord "catch" then catchClause self ctx else pure Tree.absent
  let final ← if ← takeWord? "finally" then block self ctx false else pure Tree.absent
  if handler.isAbsent && final.isAbsent then note .semicolonExpected ⟨place, place⟩
  finishNode start .tryStatement [body, handler, final]

def returnStatement (self : Self) (ctx : Context) : Rule Tree := do
  let start ← here
  advance
  let value ←
    if (← isAt ";") || (← mayEnd) then pure Tree.absent else self .expression ctx.withIn
  expectSemicolon
  let t ← finishNode start .returnStatement [value]
  if !ctx.inFunction then note .returnOutsideFunction t.span
  return t

def throwStatement (self : Self) (ctx : Context) : Rule Tree := do
  let start ← here
  advance
  if (← current).afterBreak || (← atEnd) then fault .lineBreakAfterThrow (← spanHere)
  else
    let value ← self .expression ctx.withIn
    expectSemicolon
    finishNode start .throwStatement [value]

/-- What is wrong with a jump to a label in a context, if anything is. -/
def jumpFault? (ctx : Context) (isBreak : Bool) (label : Option String) : Option Cause :=
  if isBreak then
    match label with
    | some text => if ctx.labels.contains text then none else some .breakLabelUnknown
    | none => if ctx.canBreak then none else some .breakOutsideLoop
  else if !ctx.canContinue then some .continueOutsideLoop
  else
    match label with
    | some text => if ctx.labels.contains text then none else some .continueLabelUnknown
    | none => none

def jumpStatement (ctx : Context) (isBreak : Bool) : Rule Tree := do
  let start ← here
  advance
  let label ← if (← isAt ";") || (← mayEnd) then pure Tree.absent else name (checkName ctx)
  expectSemicolon
  let t ← finishNode start (if isBreak then .breakStatement else .continueStatement) [label]
  let text := match label.form with
    | .name text => some text
    | _ => none
  match jumpFault? ctx isBreak text with
  | some cause => note cause t.span
  | none => pure ()
  return t

def withStatement (self : Self) (ctx : Context) : Rule Tree := do
  let start ← here
  if ctx.isStrict then note .withInStrict (← spanHere)
  advance
  let object ← condition self ctx
  let body ← branch self ctx
  finishNode start .withStatement [object, body]

def statement (self : Self) (ctx : Context) : Rule Tree := do
  let t ← current
  let start := t.span.lo
  match t.kind with
  | .punctuator "\x7b" => block self ctx true
  | .punctuator ";" =>
    advance
    finishNode start .emptyStatement []
  | .word "var" false => variableStatement self ctx .var
  | .word "const" false => variableStatement self ctx .constant
  | .word "let" false =>
    match ← variableKind? with
    | some kind => variableStatement self ctx kind
    | none => openStatement self ctx
  | .word "function" false => functionNode self ctx start false true
  | .word "async" false =>
    let after ← peek
    if after.kind.isWord "function" && !after.afterBreak then
      advance
      functionNode self ctx start true true
    else openStatement self ctx
  | .word "class" false => classNode self ctx true
  | .word "if" false => ifStatement self ctx
  | .word "for" false => forStatement self ctx
  | .word "while" false => whileStatement self ctx
  | .word "do" false => doWhile self ctx
  | .word "switch" false => switchStatement self ctx
  | .word "try" false => tryStatement self ctx
  | .word "return" false => returnStatement self ctx
  | .word "throw" false => throwStatement self ctx
  | .word "break" false => jumpStatement ctx true
  | .word "continue" false => jumpStatement ctx false
  | .word "with" false => withStatement self ctx
  | .word "debugger" false =>
    advance
    expectSemicolon
    finishNode start .debuggerStatement []
  | .word "import" false =>
    if (← peek).kind.isPunctuator "(" then expressionStatement self ctx
    else fault .moduleSyntax t.span
  | .word "export" false => fault .moduleSyntax t.span
  | _ => openStatement self ctx

end Contracts.Rule
