import Contracts.Json.Value
import Contracts.Number.Numeral
import Contracts.Syntax.Tree
import Contracts.Text.Quoted

/-!
# Making syntax

Constructors for the nodes that this library adds to a script. They have no span, so that nothing of
them is found in a source; whoever places one gives it a span.
-/

namespace Contracts.Build

def make (form : Form) (children : List Tree) : Tree :=
  .node form Span.none children

def name (text : String) : Tree :=
  make (.name text) []

def identifier (text : String) : Tree :=
  make (.identifier text) []

def this : Tree :=
  make .this []

def member (object : Tree) (property : String) : Tree :=
  make .member [object, name property]

/-- The property that a path of names with points between them leads to. -/
def lookup (path : String) : Tree :=
  match path.splitOn "." with
  | [] => identifier ""
  | head :: rest => rest.foldl member (identifier head)

/-- A string literal that denotes the text. -/
def string (text : String) : Tree :=
  make (.literal .string (String.ofList (Text.Quoted.encode text.toList))) []

/-- A number; the sign of a negative one is an operator. -/
def number (x : Float) : Tree :=
  if x < 0 then make (.unary "-") [make (.literal .number (Number.display (-x))) []]
  else make (.literal .number (Number.display x)) []

mutual

/-- The literal of a value. -/
def literal : Json → Tree
  | .null => make (.literal .null "null") []
  | .bool b => make (.literal .boolean (if b then "true" else "false")) []
  | .number text => number (Number.signedValue text)
  | .string s => string s
  | .array es => make .array (literals es)
  | .object ms => make .object (properties ms)

def literals : List Json → List Tree
  | [] => []
  | e :: es => literal e :: literals es

def properties : List (String × Json) → List Tree
  | [] => []
  | (k, v) :: ms => make .property [string k, literal v] :: properties ms

end

def call (function : Tree) (arguments : List Tree) : Tree :=
  make .call (function :: arguments)

def expressionStatement (e : Tree) : Tree :=
  make .expressionStatement [e]

def block (body : List Tree) : Tree :=
  make (.block false) body

def blockStatement (body : List Tree) : Tree :=
  make (.block true) body

def parameters (names : List String) : Tree :=
  make .parameters (names.map fun text => make .parameter [make (.binding text) []])

def functionExpression (names : List String) (body : List Tree) : Tree :=
  make (.functionExpression .plain) [Tree.absent, parameters names, block body]

def functionDeclaration (called : String) (names : List String) (body : List Tree) : Tree :=
  make (.functionDeclaration .plain) [name called, parameters names, block body]

def returnStatement (value : Option Tree) : Tree :=
  make .returnStatement [value.getD Tree.absent]

/-- An expression as the target of an assignment. What is neither a name nor a property stands in
parentheses. -/
def target (t : Tree) : Tree :=
  match t.form with
  | .identifier text => .node (.binding text) t.span []
  | .member => t
  | _ => make .paren [t]

def assignment (left right : Tree) : Tree :=
  make (.assignment "=") [target left, right]

def binary (operator : String) (left right : Tree) : Tree :=
  make (.binary operator) [left, right]

/-- A script of statements that are in no file. -/
def script (body : List Tree) : Script :=
  ⟨Span.none, none, body⟩

end Contracts.Build
