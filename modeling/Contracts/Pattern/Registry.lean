import Contracts.Pattern.Matcher
import Contracts.Pattern.SExpr
import Contracts.Text.Escaped

/-!
# Compiling patterns

A registry gives meaning to the names that patterns use. Compiling turns an s-expression into a
matcher, by recursion on it:

* `?` matches anything, and `?x` anything that is there, which it binds to `x`;
* `(?x p)` matches what `p` matches and binds it to `x`;
* a list with another symbol in front is made by the factory of that name;
* a symbol alone is made by the factory of that name without arguments, and if there is none it
  matches what has this name.
-/

namespace Contracts

structure Registry where
  entries : List (String × Factory)

namespace Registry

def find? (r : Registry) (name : String) : Option Factory :=
  List.lookup name r.entries

def contains (r : Registry) (name : String) : Bool :=
  (r.find? name).isSome

/-- Add a factory, in place of one that has the name already. -/
def add (r : Registry) (name : String) (factory : Factory) : Registry :=
  ⟨(name, factory) :: r.entries.filter fun e => e.1 != name⟩

def builtins : Registry :=
  ⟨[("var", Factory.declarator), ("return", Factory.returned), ("ident", Factory.identifier),
    ("expr", Factory.expressionStatement), ("call", Factory.call),
    ("function", Factory.functionDeclaration)]⟩

/-- The built-in names and the two that the wrapping of functions uses. -/
def standard : Registry :=
  (builtins.add "var!" Factory.variableDeclaration).add "fn-expr" Factory.functionExpression

/-- A one-line description: the names in their order. -/
def describe (r : Registry) : String :=
  let names := (r.entries.map Prod.fst).mergeSort fun a b => !Text.before b a
  "MatcherRegistry \x7b matchers: [" ++
    String.intercalate ", " (names.map Text.escaped) ++ "] \x7d"

/-- Make the matcher of a name from its arguments. -/
def invoke (r : Registry) (name : String) (args : List Matcher) : Except PatternError Matcher :=
  match r.find? name with
  | some factory => factory args
  | none => .error (.unknownMatcher name)

/-- What follows a question mark at the start of a name. -/
def variableName? (name : String) : Option String :=
  match name.toList with
  | '?' :: cs => some (String.ofList cs)
  | _ => none

def compileSymbol (r : Registry) (name : String) : Except PatternError Matcher :=
  match variableName? name with
  | some x => .ok (if x.isEmpty then Matcher.any else Matcher.capture x)
  | none => if r.contains name then r.invoke name [] else .ok (Matcher.named name)

mutual

def compileExpr (r : Registry) : SExpr → Except PatternError Matcher
  | .symbol name _ => compileSymbol r name
  | .list [] offset => .error (.emptyList offset)
  | .list (.list _ offset :: _) _ => .error (.invalidHead offset)
  | .list (.symbol name _ :: args) _ =>
    match variableName? name with
    | some x =>
      match args with
      | [inner] => (compileExpr r inner).map (Matcher.capturing x)
      | _ => .error (.arity name "1" args.length)
    | none =>
      match compileAll r args with
      | .ok matchers => r.invoke name matchers
      | .error e => .error e

def compileAll (r : Registry) : List SExpr → Except PatternError (List Matcher)
  | [] => .ok []
  | e :: es =>
    match compileExpr r e with
    | .ok m =>
      match compileAll r es with
      | .ok ms => .ok (m :: ms)
      | .error err => .error err
    | .error err => .error err

end

/-- The matcher of a pattern's text. -/
def compile (r : Registry) (pattern : String) : Except PatternError Matcher :=
  match SExpr.read pattern.toList with
  | .ok e => r.compileExpr e
  | .error err => .error err

end Registry

end Contracts
