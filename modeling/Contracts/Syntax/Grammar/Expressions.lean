import Contracts.Syntax.Grammar.Functions

/-!
# Expressions

An expression is read from its first token on, and what turns out to be the parameters of an arrow
function or the pattern of an assignment is converted when the mark that decides it is met.

Operands and operators are read as one flat sequence and put together afterwards by `climb`, a fold
over the sequence with a stack of operands that still wait for a right side. Each operator first
closes those on the stack that bind at least as tightly.
-/

namespace Contracts.Rule

/-- How tightly a binary operator binds; zero for what is none. -/
def precedence : String → Nat
  | "??" | "||" => 1
  | "&&" => 2
  | "|" => 3
  | "^" => 4
  | "&" => 5
  | "==" | "!=" | "===" | "!==" => 6
  | "<" | ">" | "<=" | ">=" | "instanceof" | "in" => 7
  | "<<" | ">>" | ">>>" => 8
  | "+" | "-" => 9
  | "*" | "/" | "%" => 10
  | "**" => 11
  | _ => 0

/-- The binary operator that a token is, if it is one. -/
def binaryOperator? (ctx : Context) : TokenKind → Option String
  | .punctuator text => if precedence text = 0 then none else some text
  | .word text false =>
    if text = "instanceof" || (text = "in" && ctx.allowIn) then some text else none
  | _ => none

def binaryNode (operator : String) (left right : Tree) : Tree :=
  .node (.binary operator) (left.span.through right.span) [left, right]

/-- Close the waiting operands whose operators bind more tightly than `level`. -/
def unwind (level : Nat) : List (Tree × String) → Tree → List (Tree × String) × Tree
  | [], t => ([], t)
  | (left, operator) :: stack, t =>
    if level < precedence operator then unwind level stack (binaryNode operator left t)
    else ((left, operator) :: stack, t)

/-- The level that an operator unwinds to; an operator that groups to the right leaves its own kind
on the stack. -/
def unwindLevel (operator : String) : Nat :=
  if operator = "**" then precedence operator else precedence operator - 1

def climb (stack : List (Tree × String)) (t : Tree) : List (String × Tree) → Tree
  | [] => (unwind 0 stack t).2
  | (operator, operand) :: rest =>
    let (stack, left) := unwind (unwindLevel operator) stack t
    climb ((left, operator) :: stack) operand rest

/-- The span of an operand of `??` that is put together by `||` or `&&` and stands in no
parentheses. -/
def mixedOperand? : Tree → Option Span
  | .node (.binary "||") s _ | .node (.binary "&&") s _ => some s
  | _ => none

/-- The operands of `??` that should stand in parentheses, in a tree of operators. -/
def mixedOperands : Tree → List Span
  | .node (.binary operator) _ [left, right] =>
    mixedOperands left ++ mixedOperands right ++
      if operator = "??" then (mixedOperand? left).toList ++ (mixedOperand? right).toList else []
  | _ => []

/-- An arrow function is not an operand of anything. -/
def isArrow (t : Tree) : Bool :=
  match t.form with
  | .arrow _ => true
  | _ => false

/-- The arguments of a call in their parentheses. -/
def arguments (self : Self) (ctx : Context) : Rule (List Tree) := do
  expect "("
  let args ← commaList ")" true do
    let start ← here
    if ← take? "..." then
      let e ← self .assignment ctx.withIn
      finishNode start .spread [e]
    else self .assignment ctx.withIn
  expect ")"
  return args

/-- An arrow function from the arrow on, its parameters already known. -/
def arrowRest (self : Self) (ctx : Context) (start : Nat) (isAsync : Bool) (ps : List Tree) :
    Rule Tree := do
  let list : Tree := .node .parameters ⟨start, ← finish⟩ ps
  expect "=>"
  let inner := ctx.enterArrow isAsync
  let body ←
    if ← isAt "\x7b" then functionBody self inner (ps.all isPlainParameter)
    else self .assignment { inner with allowIn := ctx.allowIn }
  finishNode start (.arrow isAsync) [list, body]

/-- Whether an arrow comes next, on the same line. -/
def isAtArrow : Rule Bool := do
  let t ← current
  return t.kind.isPunctuator "=>" && !t.afterBreak

/-- The parameters that expressions in parentheses stand for. -/
def toParameters (items : List Tree) : Rule (List Tree) :=
  items.mapM fun t =>
    match t.toPattern with
    | some p => pure p
    | none => fault .invalidTarget t.span

/-- An expression in parentheses, or an arrow function that starts with its parameters. -/
def parenthesized (self : Self) (ctx : Context) : Rule Tree := do
  let start ← here
  expect "("
  let items ← commaList ")" true do
    if ← isAt "..." then restPattern self ctx .rest else self .assignment ctx.withIn
  let closing ← spanHere
  expect ")"
  if ← isAtArrow then arrowRest self ctx start false (← toParameters items)
  else
    match items with
    | [] => fault .expressionExpected closing
    | first :: others =>
      match items.find? fun t => t.form == .rest with
      | some t => fault .expressionExpected ⟨t.span.lo, t.span.lo + 3⟩
      | none =>
        match others.getLast? with
        | none => finishNode start .paren [first]
        | some final => finishNode start .paren [.node .sequence (first.span.through final.span) items]

/-- The parts of a template from the position of its next chunk on. -/
def templateParts (self : Self) (ctx : Context) (isTagged : Bool) : Nat → Rule (List Tree)
  | 0 => faultAtEnd
  | n + 1 => do
    let c ← get
    let start := c.token.span.hi
    match Token.scanChunk [] c.rest with
    | none =>
      let stop := start + Text.byteLength c.rest
      fault .unterminatedTemplate ⟨stop, stop⟩
    | some (text, ending, rest) =>
      let stop := start + Text.byteLength text
      if !isTagged then
        match Token.textFault? false start text with
        | some found => fault found.cause found.span
        | none => pure ()
      let part : Tree := .node (.chunk isTagged (String.ofList text)) ⟨start, stop⟩ []
      match ending with
      | .template =>
        let closing : Token := ⟨.punctuator "`", ⟨stop, stop + 1⟩, false⟩
        set (← c.moveFrom (some closing) (stop + 1) (stop + 1) false rest)
        return [part]
      | .substitution =>
        let opening : Token := ⟨.substitution, ⟨stop, stop + 2⟩, false⟩
        set (← c.moveFrom (some opening) (stop + 2) (stop + 2) false rest)
        let e ← self .expression ctx.withIn
        if ← isAt "\x7d" then
          let more ← templateParts self ctx isTagged n
          return part :: e :: more
        else fault (.expected "\x7d" (← kind).describe) (← spanHere)

/-- A template from its opening mark on. -/
def template (self : Self) (ctx : Context) (isTagged : Bool) : Rule Tree := do
  let start ← here
  let parts ← templateParts self ctx isTagged (← get).limit
  finishNode start (.template isTagged) parts

/-- The regular expression that starts with the current slash. -/
def regex : Rule Tree := do
  let c ← get
  let tail := if c.token.kind.isPunctuator "/=" then '=' :: c.rest else c.rest
  let (token, rest) ← Token.scanRegex c.token.span.lo c.token.afterBreak tail
  set { c with token := token, rest := rest }
  advance
  match token.kind with
  | .regex text => finishNode token.span.lo (.literal .regex text) []
  | _ => fault .unterminatedRegex token.span

/-- A class from its keyword on. All of it is in strict mode. -/
def classNode (self : Self) (ctx : Context) (isDeclaration : Bool) : Rule Tree := do
  let start ← here
  expectWord "class"
  if ← isAtWord "let" then fault .nameIsLet (← spanHere)
  let inner := ctx.strict
  let called ←
    if isDeclaration then name (checkBinding inner)
    else if (← kind).name?.isSome then name (checkBinding inner)
    else pure Tree.absent
  let parent ← if ← takeWord? "extends" then self .unary inner else pure Tree.absent
  let members ← classBody self inner
  finishNode start (if isDeclaration then .classDeclaration else .classExpression)
    [called, members, parent]

/-- The keyword `new` with what it makes. -/
def newNode (self : Self) (ctx : Context) : Rule Tree := do
  let start ← here
  expectWord "new"
  if ← take? "." then
    let property ← anyName
    match property.form with
    | .name text => finishNode start (.metaProperty ("new." ++ text)) []
    | _ => fault .nameExpected property.span
  else
    let made ← self .newTarget ctx
    if ← isAt "(" then
      let args ← arguments self ctx
      finishNode start (.new true) (made :: args)
    else finishNode start (.new false) [made]

/-- A function, an arrow function, a call or a name that starts with the word `async`. -/
def asyncNode (self : Self) (ctx : Context) : Rule Tree := do
  let start ← here
  let after ← peek
  if after.kind.isWord "function" && !after.afterBreak then
    advance
    functionNode self ctx start true false
  else
    advance
    let called ← finishNode start (.identifier "async") []
    let t ← current
    if t.afterBreak then return called
    else if t.kind.isPunctuator "=>" then
      arrowRest self ctx start false [.node (.binding "async") called.span []]
    else if t.kind.isPunctuator "(" then
      let args ← arguments self ctx
      if ← isAtArrow then arrowRest self ctx start true (← toParameters args)
      else finishNode start .call (called :: args)
    else
      match ctx.name? t.kind with
      | some text =>
        if (← peek).kind.isPunctuator "=>" then
          advance
          arrowRest self ctx start true [.node (.binding text) t.span []]
        else return called
      | none => return called

/-- One more link of a chain of properties and calls. -/
def link (self : Self) (ctx : Context) (allowCall : Bool) (t : Tree) : Rule (Option Tree) := do
  if isArrow t then return none
  else
    let start := t.span.lo
    let inChain := match t.form with
      | .optionalMember _ | .optionalCall _ => true
      | _ => false
    let memberForm : Form :=
      if inChain then .optionalMember false
      else if t.form == .super then .superMember
      else .member
    match ← kind with
    | .punctuator "." =>
      advance
      let property ← anyName
      return some (← finishNode start memberForm [t, property])
    | .punctuator "[" =>
      let key ← computedKey self ctx
      return some (← finishNode start memberForm [t, key])
    | .punctuator "(" =>
      if allowCall then
        let args ← arguments self ctx
        return some (← finishNode start (if inChain then .optionalCall false else .call) (t :: args))
      else return none
    | .punctuator "?." =>
      if allowCall then
        advance
        if ← isAt "(" then
          let args ← arguments self ctx
          return some (← finishNode start (.optionalCall true) (t :: args))
        else
          let property ← if ← isAt "[" then computedKey self ctx else anyName
          return some (← finishNode start (.optionalMember true) [t, property])
      else return none
    | .punctuator "`" =>
      let quasi ← template self ctx true
      return some (← finishNode start .taggedTemplate [t, quasi])
    | _ => return none

/-- An expression without operators and without links. -/
def primary (self : Self) (ctx : Context) : Rule Tree := do
  let t ← current
  let start := t.span.lo
  let leaf (form : Form) : Rule Tree := do
    advance
    finishNode start form []
  match t.kind with
  | .number text =>
    checkNumber ctx text t.span
    leaf (.literal .number text)
  | .bigint text => leaf (.literal .bigint text)
  | .string text =>
    checkText ctx text t.span
    leaf (.literal .string text)
  | .privateName text => leaf (.privateName text)
  | .punctuator "(" => parenthesized self ctx
  | .punctuator "[" =>
    advance
    let elements ← commaList "]" true do
      let place ← here
      if ← isAt "," then return Tree.absent
      else if ← take? "..." then
        let e ← self .assignment ctx.withIn
        finishNode place .spread [e]
      else self .assignment ctx.withIn
    expect "]"
    finishNode start .array elements
  | .punctuator "\x7b" =>
    advance
    let members ← commaList "\x7d" false (objectMember self ctx)
    expect "\x7d"
    finishNode start .object members
  | .punctuator "`" => template self ctx false
  | .punctuator "/" | .punctuator "/=" => regex
  | .word "function" false => functionNode self ctx start false false
  | .word "async" false => asyncNode self ctx
  | .word "class" false => classNode self ctx false
  | .word "new" false => newNode self ctx
  | .word "this" false => leaf .this
  | .word "super" false =>
    let after := (← peek).kind
    if after.isPunctuator "." || after.isPunctuator "[" || after.isPunctuator "(" then leaf .super
    else fault .superAlone t.span
  | .word "null" false => leaf (.literal .null "null")
  | .word "true" false => leaf (.literal .boolean "true")
  | .word "false" false => leaf (.literal .boolean "false")
  | .word "import" false =>
    if (← peek).kind.isPunctuator "(" then leaf .importFunction
    else fault .moduleSyntax t.span
  | _ =>
    match ctx.name? t.kind with
    | some text =>
      if ctx.inField && text == "arguments" then note .argumentsInClass t.span
      advance
      let called ← finishNode start (.identifier text) []
      if ← isAtArrow then arrowRest self ctx start false [.node (.binding text) called.span []]
      else return called
    | none => fault .expressionExpected (← spanHere)

/-- A chain of properties and, where allowed, calls. -/
def chain (self : Self) (ctx : Context) (allowCall : Bool) : Rule Tree := do
  iterate (link self ctx allowCall) (← primary self ctx)

/-- Check the operand of `++` or `--`. -/
def checkUpdated (ctx : Context) (operand : Tree) : Rule Unit := do
  if !operand.isSimpleTarget then note .invalidUpdateTarget operand.span
  if ctx.isStrict && operand.isRestrictedName then note .targetInStrict operand.span

/-- Operators before and after one operand. -/
def unary (self : Self) (ctx : Context) : Rule Tree := do
  let t ← current
  let start := t.span.lo
  let before (operator : String) : Rule Tree := do
    advance
    let operand ← self .unary ctx
    if ctx.isStrict && operator == "delete" && operand.form.isIdentifier then
      note .deleteInStrict operand.span
    finishNode start (.unary operator) [operand]
  let change (operator : String) : Rule Tree := do
    advance
    let operand ← self .unary ctx
    checkUpdated ctx operand
    finishNode start (.update operator true) [operand]
  match t.kind with
  | .word "typeof" false => before "typeof"
  | .word "void" false => before "void"
  | .word "delete" false => before "delete"
  | .punctuator "+" => before "+"
  | .punctuator "-" => before "-"
  | .punctuator "!" => before "!"
  | .punctuator "~" => before "~"
  | .punctuator "++" => change "++"
  | .punctuator "--" => change "--"
  | _ =>
    if ctx.isAsync && t.kind.isWord "await" then
      advance
      let operand ← self .unary ctx
      finishNode start .await [operand]
    else
      let operand ← chain self ctx true
      let after ← current
      if isArrow operand || after.afterBreak then return operand
      else
        match after.kind with
        | .punctuator "++" | .punctuator "--" =>
          checkUpdated ctx operand
          advance
          finishNode start (.update after.kind.describe false) [operand]
        | _ => return operand

/-- The operators and operands after the first operand. -/
def operands (self : Self) (ctx : Context) : Nat → Rule (List (String × Tree))
  | 0 => return []
  | n + 1 => do
    match binaryOperator? ctx (← kind) with
    | none => return []
    | some operator =>
      advance
      let operand ← self .unary ctx
      return (operator, operand) :: (← operands self ctx n)

/-- Operands with binary operators between them. -/
def binary (self : Self) (ctx : Context) : Rule Tree := do
  let first ← self .unary ctx
  if isArrow first then return first
  else
    let rest ← operands self ctx (← get).limit
    let t := climb [] first rest
    (mixedOperands t).forM (note .logicalMixed)
    return t

def conditional (self : Self) (ctx : Context) : Rule Tree := do
  let test ← binary self ctx
  if isArrow test then return test
  else if ← take? "?" then
    let yes ← self .assignment ctx.withIn
    expect ":"
    let no ← self .assignment ctx
    finishNode test.span.lo .conditional [test, yes, no]
  else return test

/-- Whether the operand of a `yield` is missing here. -/
def endsYield : Rule Bool := do
  let t ← current
  return t.afterBreak ||
    match t.kind with
    | .punctuator text => [")", "]", "\x7d", ",", ";", ":"].contains text
    | .word text _ => text == "in" || text == "of"
    | .endOfFile => true
    | _ => false

def yield (self : Self) (ctx : Context) : Rule Tree := do
  let start ← here
  advance
  if ← endsYield then finishNode start (.yield false) [Tree.absent]
  else
    let isDelegate ← take? "*"
    let e ← self .assignment ctx
    finishNode start (.yield isDelegate) [e]

/-- An expression without commas. -/
def assignment (self : Self) (ctx : Context) : Rule Tree := do
  if ← atEnd then faultAtEnd
  else if ctx.isGenerator && (← isAtWord "yield") then yield self ctx
  else
    let left ← conditional self ctx
    if isArrow left then return left
    else
      match ← kind with
      | .punctuator operator =>
        if assignmentOperators.contains operator then
          match left.toTarget (operator == "=") with
          | none => fault .invalidTarget left.span
          | some target =>
            if ctx.isStrict && left.isRestrictedName then note .targetInStrict left.span
            advance
            let value ← self .assignment ctx
            finishNode left.span.lo (.assignment operator) [target, value]
        else return left
      | _ => return left

/-- Expressions with commas between them. -/
def expression (self : Self) (ctx : Context) : Rule Tree := do
  let first ← self .assignment ctx
  if ← isAt "," then
    let rest ← many (do return !(← isAt ",")) do
      advance
      self .assignment ctx
    finishNode first.span.lo .sequence (first :: rest)
  else return first

end Contracts.Rule
