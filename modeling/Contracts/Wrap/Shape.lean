import Contracts.Pattern.Registry

/-!
# Which statements hold a function that can be wrapped

Three shapes are recognized: a function declaration; a declaration of one variable that is
initialized with a function expression; and the return of a function expression. The second and the
third are given by patterns, which are compiled from their texts.
-/

namespace Contracts

/-- A single declarator that is initialized with a function expression. -/
def variableFunctionPattern : String := "(var! (var ?ident (?f fn-expr)))"

/-- The return of a function expression. -/
def returnFunctionPattern : String := "(return (?f fn-expr))"

/-- The compiled patterns of the two shapes. -/
structure ShapePatterns where
  variableFunction : Matcher
  returnFunction : Matcher

namespace ShapePatterns

/-- Compile the patterns with the names of a registry. -/
def compile (r : Registry) : Except PatternError ShapePatterns :=
  match r.compile variableFunctionPattern with
  | .error e => .error e
  | .ok v =>
    match r.compile returnFunctionPattern with
    | .error e => .error e
    | .ok f => .ok ⟨v, f⟩

/-- The patterns compiled with the standard names. -/
def standard : ShapePatterns :=
  match compile .standard with
  | .ok patterns => patterns
  | .error _ => ⟨fun _ => none, fun _ => none⟩

end ShapePatterns

inductive Shape where
  | declaration
  /-- The name of the variable. -/
  | variableFunction (name : String)
  | returnFunction
  | other
  deriving DecidableEq, Repr

/-- The shape of a statement or of the head of a loop. -/
def Shape.classify (patterns : ShapePatterns) (t : Tree) : Shape :=
  match t.form with
  | .functionDeclaration _ => .declaration
  | _ =>
    let n : Node := ⟨[], t⟩
    match (patterns.variableFunction n).bind fun b => (b.get? "ident").bind Node.name? with
    | some name => .variableFunction name
    | none => if (patterns.returnFunction n).isSome then .returnFunction else .other

/-- The name that a function expression has of its own, parentheses aside. -/
def Tree.functionName? (t : Tree) : Option String :=
  match t.unparen with
  | .node (.functionExpression _) _ (.node (.name text) _ _ :: _) => some text
  | _ => none

end Contracts
