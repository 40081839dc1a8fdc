import Contracts.Syntax.Grammar.Basic
import Contracts.Syntax.Grammar.Target

/-!
# Patterns, functions and classes

Binding patterns, the parameters and bodies of functions, the keys of properties, and the members of
objects and classes.
-/

namespace Contracts.Rule

/-- A key written in brackets. -/
def computedKey (self : Self) (ctx : Context) : Rule Tree := do
  let start ← here
  expect "["
  let e ← self .expression ctx.withIn
  expect "]"
  finishNode start .computed [e]

/-- The key of a property or of a member of a class. -/
def propertyKey (self : Self) (ctx : Context) : Rule Tree := do
  let start ← here
  match ← kind with
  | .string text =>
    checkText ctx text (← current).span
    advance
    finishNode start (.literal .string text) []
  | .number text =>
    checkNumber ctx text (← current).span
    advance
    finishNode start (.literal .number text) []
  | .bigint text =>
    advance
    finishNode start (.literal .bigint text) []
  | .punctuator "[" => computedKey self ctx
  | .endOfFile => faultAtEnd
  | _ => anyName

/-- A pattern that may have a default. -/
def patternElement (self : Self) (ctx : Context) : Rule Tree := do
  let start ← here
  let p ← self .pattern ctx
  if ← take? "=" then
    let value ← self .assignment ctx.withIn
    finishNode start .defaultPattern [p, value]
  else return p

/-- Three points and a pattern. -/
def restPattern (self : Self) (ctx : Context) (form : Form) : Rule Tree := do
  let start ← here
  expect "..."
  let p ← self .pattern ctx
  finishNode start form [p]

def arrayPatternElement (self : Self) (ctx : Context) : Rule Tree := do
  if ← isAt "," then return Tree.absent
  else if ← isAt "..." then restPattern self ctx .rest
  else patternElement self ctx

def objectPatternElement (self : Self) (ctx : Context) : Rule Tree := do
  let start ← here
  if ← isAt "..." then restPattern self ctx .restProperty
  else
    let k ← kind
    let key ← propertyKey self ctx
    if ← take? ":" then
      let p ← patternElement self ctx
      finishNode start .patternProperty [key, p]
    else
      match k.name? with
      | none => fault (.expected ":" (← kind).describe) (← spanHere)
      | some text =>
        checkBinding ctx text ⟨start, key.span.hi⟩
        if ← take? "=" then
          let value ← self .assignment ctx.withIn
          finishNode start .patternShorthand [key, value]
        else finishNode start .patternShorthand [key, Tree.absent]

/-- A name, an array pattern or an object pattern. -/
def pattern (self : Self) (ctx : Context) : Rule Tree := do
  let start ← here
  let k ← kind
  match k.name? with
  | some text =>
    checkBinding ctx text (← spanHere)
    advance
    finishNode start (.binding text) []
  | none =>
    if k.isPunctuator "[" then
      advance
      let elements ← commaList "]" true (arrayPatternElement self ctx)
      expect "]"
      finishNode start .arrayPattern elements
    else if k.isPunctuator "\x7b" then
      advance
      let elements ← commaList "\x7d" true (objectPatternElement self ctx)
      expect "\x7d"
      finishNode start .objectPattern elements
    else
      match k with
      | .endOfFile => faultAtEnd
      | .word _ _ => fault .nameExpected (← spanHere)
      | _ => fault (.bindingExpected k.describe) (← spanHere)

/-- The parameters of a function in their parentheses. The one of a setter is a plain pattern. -/
def parameters (self : Self) (ctx : Context) (isSetter : Bool) : Rule Tree := do
  let start ← here
  expect "("
  let ps ← commaList ")" false do
    let p ← if ← isAt "..." then restPattern self ctx .rest else patternElement self ctx
    return if isSetter then p else .node .parameter p.span [p]
  expect ")"
  finishNode start .parameters ps

/-- Whether a parameter is a name without a default. -/
def isPlainParameter (p : Tree) : Bool :=
  match p with
  | .node .parameter _ [.node (.binding _) _ _] => true
  | .node (.binding _) _ _ => true
  | _ => false

/-- Parameters and body of a function. -/
def functionRest (self : Self) (ctx : Context) (m : Modifiers) (isSetter : Bool) :
    Rule (List Tree) := do
  let inner := ctx.enter m
  let ps ← parameters self inner isSetter
  let body ← functionBody self inner (ps.children.all isPlainParameter)
  return [ps, body]

/-- A function from the keyword on. `start` is where the whole node starts; the name is required in a
declaration. -/
def functionNode (self : Self) (ctx : Context) (start : Nat) (isAsync isDeclaration : Bool) :
    Rule Tree := do
  expectWord "function"
  let isGenerator ← take? "*"
  let m : Modifiers := ⟨isAsync, isGenerator⟩
  let called ←
    if isDeclaration then name (checkBinding ctx)
    else if (← kind).name?.isSome then name (checkBinding (ctx.enter m))
    else pure Tree.absent
  let rest ← functionRest self ctx m false
  let form : Form := if isDeclaration then .functionDeclaration m else .functionExpression m
  finishNode start form (called :: rest)

/-- Whether a word that can come before a key is itself the key, by what follows it. -/
def isKeyItself (k : TokenKind) : Bool :=
  match k with
  | .punctuator text => ["(", ",", ":", "\x7d", "=", ";"].contains text
  | .endOfFile => true
  | _ => false

/-- Take the word `text` in front of a key. -/
def takeModifier? (text : String) (sameLine : Bool) : Rule Bool := do
  if ← isAtWord text then
    let after ← peek
    if isKeyItself after.kind || (sameLine && after.afterBreak) then return false
    else
      advance
      return true
  else return false

/-- What stands before the key of a method: `async`, `*`, or one of `get` and `set`. -/
def methodHead : Rule (MethodKind × Modifiers) := do
  let isAsync ← takeModifier? "async" true
  let isGenerator ← take? "*"
  if isAsync || isGenerator then return (.method, ⟨isAsync, isGenerator⟩)
  else if ← takeModifier? "get" false then return (.getter, .plain)
  else if ← takeModifier? "set" false then return (.setter, .plain)
  else return (.method, .plain)

/-- A member of an object literal. -/
def objectMember (self : Self) (ctx : Context) : Rule Tree := do
  let start ← here
  if ← take? "..." then
    let e ← self .assignment ctx.withIn
    finishNode start .spreadProperty [e]
  else
    let (role, m) ← methodHead
    let k ← kind
    let key ← propertyKey self ctx
    if role != .method || m != .plain || (← isAt "(") then
      let rest ← functionRest self ctx m (role == .setter)
      finishNode start (.method role m) (key :: rest)
    else if ← take? ":" then
      let value ← self .assignment ctx.withIn
      finishNode start .property [key, value]
    else
      match ctx.name? k with
      | none => fault (.keyAlone (← kind).describe) (← spanHere)
      | some text =>
        if ← take? "=" then
          let value ← self .assignment ctx.withIn
          finishNode start .shorthandDefault [key, value]
        else if (← isAt ",") || (← isAt "\x7d") then finishNode start (.shorthand text) []
        else fault (.memberExpected (← kind).describe) (← spanHere)

/-- Whether a key is the name `constructor`, which makes a method the constructor of its class. -/
def isConstructorKey (key : Tree) : Bool :=
  match key.form with
  | .name text => text == "constructor"
  | .literal .string text => Text.Quoted.value text == "constructor"
  | _ => false

/-- A member of a class, or `absent` for a semicolon between members. -/
def classMember (self : Self) (ctx : Context) : Rule Tree := do
  let start ← here
  if ← take? ";" then return Tree.absent
  else
    let isStatic ← takeModifier? "static" false
    if isStatic && (← isAt "\x7b") then
      let body ← block self ctx.enterStaticBlock false
      finishNode start .staticBlock [body]
    else
      let (role, m) ← methodHead
      let key ← propertyKey self ctx
      if role != .method || m != .plain || (← isAt "(") then
        let rest ← functionRest self ctx m false
        let isConstructor := !isStatic && role == .method && m == .plain && isConstructorKey key
        let form : Form := if isConstructor then .constructor else .classMethod isStatic role m
        finishNode start form (key :: rest)
      else
        let value ← if ← take? "=" then self .assignment ctx.field.withIn else pure Tree.absent
        expectSemicolon
        finishNode start (.classField isStatic) [key, value]

/-- The members of a class in their braces. -/
def classBody (self : Self) (ctx : Context) : Rule Tree := do
  let start ← here
  expect "\x7b"
  let stop : Rule Bool := do return (← isAt "\x7d") || (← atEnd)
  let members ← many stop (classMember self ctx)
  closeBody
  finishNode start .classBody (members.filter fun t => !t.isAbsent)

end Contracts.Rule
