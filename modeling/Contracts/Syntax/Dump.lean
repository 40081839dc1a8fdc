import Contracts.Json.Value
import Contracts.Number.Numeral
import Contracts.Syntax.Tree
import Contracts.Text.Quoted

/-!
# Syntax trees as data

A script as a JSON value in which every node starts with its type. The value of a node is a fold: it
is put together from the values of its children. A name is written in more or less detail depending
on what it names, so the values of names are made by their parents.
-/

namespace Contracts.Dump

def spanValue (s : Span) : Json :=
  .object [("start", .ofNat s.lo), ("end", .ofNat s.hi)]

/-- A node of a type with its span and its fields. -/
def typed (type : String) (s : Span) (fields : List (String × Json)) : Json :=
  .object (("type", .string type) :: ("span", spanValue s) :: fields)

/-- A node whose span does not come first. -/
def untyped (type : String) (fields : List (String × Json)) : Json :=
  .object (("type", .string type) :: fields)

def context : String × Json := ("ctxt", .number "0")

def textOf (f : Form) : String :=
  match f with
  | .name text | .identifier text | .binding text | .privateName text | .shorthand text => text
  | _ => ""

/-- A name that is resolved in a scope; `null` if it is absent. -/
def scopedName (t : Tree) : Json :=
  if t.isAbsent then .null
  else
    typed "Identifier" t.span
      [context, ("value", .string (textOf t.form)), ("optional", .bool false)]

/-- A name in an expression or of a declaration. -/
def identifier (s : Span) (text : String) : Json :=
  typed "Identifier" s [context, ("value", .string text), ("optional", .bool false)]

/-- A name that is bound by a pattern. -/
def boundName (s : Span) (text : String) : Json :=
  typed "Identifier" s
    [context, ("value", .string text), ("optional", .bool false), ("typeAnnotation", .null)]

/-- An argument of a call or an element of an array. -/
def argument (t : Tree) (v : Json) : Json :=
  match t.form with
  | .absent => .null
  | .spread =>
    .object [("spread", spanValue ⟨t.span.lo, t.span.lo + 3⟩), ("expression", v)]
  | _ => .object [("spread", .null), ("expression", v)]

def listOf : List Tree → List Json → List Json
  | t :: ts, v :: vs => argument t v :: listOf ts vs
  | _, _ => []

/-- What functions of all kinds have in common, from the span on. -/
def functionRest (s : Span) (m : Modifiers) (body : Json) : List (String × Json) :=
  [("decorators", .array []), ("span", spanValue s), context, ("body", body),
    ("generator", .bool m.generator), ("async", .bool m.async), ("typeParameters", .null),
    ("returnType", .null)]

/-- The pattern and the flags of a regular expression. -/
def regexParts (text : String) : String × String :=
  let backwards := text.toList.reverse
  let flags := backwards.takeWhile (· != '/')
  (String.ofList (((backwards.dropWhile (· != '/')).drop 1).reverse.drop 1),
    String.ofList flags.reverse)

def literal (s : Span) (kind : LiteralKind) (text : String) : Json :=
  match kind with
  | .null => typed "NullLiteral" s []
  | .boolean => typed "BooleanLiteral" s [("value", .bool (text == "true"))]
  | .number =>
    typed "NumericLiteral" s
      [("value", .number (Number.shortest (Number.value text)).scientific), ("raw", .string text)]
  | .bigint => typed "BigIntLiteral" s [("value", .string text), ("raw", .string text)]
  | .string =>
    typed "StringLiteral" s [("value", .string (Text.Quoted.value text)), ("raw", .string text)]
  | .regex =>
    let (pattern, flags) := regexParts text
    typed "RegExpLiteral" s [("pattern", .string pattern), ("flags", .string flags)]

/-- The value of the key of a property: a plain name has only its text. -/
def keyValue (t : Tree) (v : Json) : Json :=
  match t.form with
  | .name text => typed "Identifier" t.span [("value", .string text)]
  | .privateName text => typed "PrivateName" t.span [("value", .string text)]
  | _ => v

def statementValue (f : Form) (s : Span) (cs : List Tree) (vs : List Json) : Json :=
  match f, cs, vs with
  | .emptyStatement, _, _ => typed "EmptyStatement" s []
  | .debuggerStatement, _, _ => typed "DebuggerStatement" s []
  | .expressionStatement, _, [e] => typed "ExpressionStatement" s [("expression", e)]
  | .block _, _, _ => typed "BlockStatement" s [context, ("stmts", .array vs)]
  | .variableStatement kind, _, _ | .variableHead kind, _, _ =>
    typed "VariableDeclaration" s
      [context, ("kind", .string kind.keyword), ("declare", .bool false),
        ("declarations", .array vs)]
  | .declarator, _, [p, e] =>
    typed "VariableDeclarator" s [("id", p), ("init", e), ("definite", .bool false)]
  | .functionDeclaration m, called :: _, [_, params, body] =>
    untyped "FunctionDeclaration"
      ([("identifier", scopedName called), ("declare", .bool false), ("params", params)] ++
        functionRest s m body)
  | .parameters, _, _ => .array vs
  | .parameter, _, [p] =>
    typed "Parameter" s [("decorators", .array []), ("pat", p)]
  | .returnStatement, _, [e] => typed "ReturnStatement" s [("argument", e)]
  | .throwStatement, _, [e] => typed "ThrowStatement" s [("argument", e)]
  | .ifStatement, _, [test, yes, no] =>
    typed "IfStatement" s [("test", test), ("consequent", yes), ("alternate", no)]
  | .whileStatement, _, [test, body] => typed "WhileStatement" s [("test", test), ("body", body)]
  | .doWhile, _, [test, body] => typed "DoWhileStatement" s [("test", test), ("body", body)]
  | .forStatement, _, [init, test, update, body] =>
    typed "ForStatement" s [("init", init), ("test", test), ("update", update), ("body", body)]
  | .forIn, _, [left, right, body] =>
    typed "ForInStatement" s [("left", left), ("right", right), ("body", body)]
  | .forOf isAwait, _, [left, right, body] =>
    typed "ForOfStatement" s
      [("isAwait", .bool isAwait), ("left", left), ("right", right), ("body", body)]
  | .switchStatement, _, value :: cases =>
    typed "SwitchStatement" s [("discriminant", value), ("cases", .array cases)]
  | .switchCase, _, value :: body =>
    typed "SwitchCase" s [("test", value), ("consequent", .array body)]
  | .tryStatement, _, [body, handler, final] =>
    typed "TryStatement" s [("block", body), ("handler", handler), ("finalizer", final)]
  | .catchClause, _, [p, body] => typed "CatchClause" s [("param", p), ("body", body)]
  | .breakStatement, [label], _ => typed "BreakStatement" s [("label", scopedName label)]
  | .continueStatement, [label], _ => typed "ContinueStatement" s [("label", scopedName label)]
  | .labeled, label :: _, [_, body] =>
    typed "LabeledStatement" s [("label", scopedName label), ("body", body)]
  | .withStatement, _, [object, body] =>
    typed "WithStatement" s [("object", object), ("body", body)]
  | _, _, _ => .array vs

def expressionValue (f : Form) (s : Span) (cs : List Tree) (vs : List Json) : Json :=
  match f, cs, vs with
  | .identifier text, _, _ | .shorthand text, _, _ | .name text, _, _ => identifier s text
  | .binding text, _, _ => boundName s text
  | .literal kind text, _, _ => literal s kind text
  | .this, _, _ => typed "ThisExpression" s []
  | .super, _, _ => typed "Super" s []
  | .importFunction, _, _ => typed "Import" s [("phase", .string "evaluation")]
  | .array, _, _ => typed "ArrayExpression" s [("elements", .array (listOf cs vs))]
  | .object, _, _ => typed "ObjectExpression" s [("properties", .array vs)]
  | .property, [key, _], [k, v] => untyped "KeyValueProperty" [("key", keyValue key k), ("value", v)]
  | .spread, _, [e] => e
  | .spreadProperty, _, [e] =>
    untyped "SpreadElement" [("spread", spanValue ⟨s.lo, s.lo + 3⟩), ("arguments", e)]
  | .computed, _, [e] => typed "Computed" s [("expression", e)]
  | .functionExpression m, called :: _, [_, params, body] =>
    untyped "FunctionExpression"
      ([("identifier", scopedName called), ("params", params)] ++ functionRest s m body)
  | .method .method m, key :: _, [k, params, body] =>
    untyped "MethodProperty" ([("key", keyValue key k), ("params", params)] ++ functionRest s m body)
  | .arrow isAsync, _, [params, body] =>
    typed "ArrowFunctionExpression" s
      [context, ("params", params), ("body", body), ("async", .bool isAsync),
        ("generator", .bool false), ("typeParameters", .null), ("returnType", .null)]
  | .member, [_, key], [object, k] =>
    typed "MemberExpression" s [("object", object), ("property", keyValue key k)]
  | .superMember, [_, key], [object, k] =>
    typed "SuperPropExpression" s [("obj", object), ("property", keyValue key k)]
  | .call, _ :: args, callee :: values =>
    typed "CallExpression" s
      [context, ("callee", callee), ("arguments", .array (listOf args values)),
        ("typeArguments", .null)]
  | .new hasArguments, _ :: args, made :: values =>
    typed "NewExpression" s
      [context, ("callee", made),
        ("arguments", if hasArguments then .array (listOf args values) else .null),
        ("typeArguments", .null)]
  | .unary operator, _, [e] =>
    typed "UnaryExpression" s [("operator", .string operator), ("argument", e)]
  | .update operator isBefore, _, [e] =>
    typed "UpdateExpression" s
      [("operator", .string operator), ("prefix", .bool isBefore), ("argument", e)]
  | .binary operator, _, [left, right] =>
    typed "BinaryExpression" s [("operator", .string operator), ("left", left), ("right", right)]
  | .assignment operator, _, [target, value] =>
    typed "AssignmentExpression" s
      [("operator", .string operator), ("left", target), ("right", value)]
  | .conditional, _, [test, yes, no] =>
    typed "ConditionalExpression" s [("test", test), ("consequent", yes), ("alternate", no)]
  | .sequence, _, _ => typed "SequenceExpression" s [("expressions", .array vs)]
  | .paren, _, [e] => typed "ParenthesisExpression" s [("expression", e)]
  | .yield isDelegate, _, [e] =>
    typed "YieldExpression" s [("argument", e), ("delegate", .bool isDelegate)]
  | .await, _, [e] => typed "AwaitExpression" s [("argument", e)]
  | .arrayPattern, _, _ =>
    typed "ArrayPattern" s
      [("elements", .array vs), ("optional", .bool false), ("typeAnnotation", .null)]
  | .objectPattern, _, _ =>
    typed "ObjectPattern" s
      [("properties", .array vs), ("optional", .bool false), ("typeAnnotation", .null)]
  | .patternProperty, [key, _], [k, p] =>
    untyped "KeyValuePatternProperty" [("key", keyValue key k), ("value", p)]
  | .patternShorthand, key :: _, [_, value] =>
    typed "AssignmentPatternProperty" s
      [("key", boundName key.span (textOf key.form)), ("value", value)]
  | .defaultPattern, _, [p, e] => typed "AssignmentPattern" s [("left", p), ("right", e)]
  | .rest, _, [p] | .restProperty, _, [p] =>
    typed "RestElement" s
      [("rest", spanValue ⟨s.lo, s.lo + 3⟩), ("argument", p), ("typeAnnotation", .null)]
  | .expressionPattern, _, [e] => e
  | .absent, _, _ => .null
  | _, _, _ => .array vs

def nodeValue (f : Form) (s : Span) (cs : List Tree) (vs : List Json) : Json :=
  match f.category with
  | .statement | .variableHead | .declarator => statementValue f s cs vs
  | .part =>
    match f with
    | .block _ | .parameters | .parameter | .switchCase | .catchClause => statementValue f s cs vs
    | _ => expressionValue f s cs vs
  | _ => expressionValue f s cs vs

def tree (t : Tree) : Json :=
  t.fold nodeValue

def script (s : Script) : Json :=
  typed "Script" s.span
    [("body", .array (s.body.map tree)),
      ("interpreter", match s.interpreter with
        | some text => .string text
        | none => .null)]

end Contracts.Dump
