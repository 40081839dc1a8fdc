import Contracts.Layout.Page
import Contracts.Syntax.Tree

/-!
# Printing a script

`Tree.pieces` is a fold that puts the pieces of a node together from the pieces of its children. The
layout depends on the tree only. Positions are marked where a node starts and, for some productions,
where it ends; a node without a span marks nothing.

Each rule below gives the text of one production. A statement is followed by a line end, except a
block, after which the line goes on.
-/

namespace Contracts

/-- The mark of a node's start. -/
def Span.startMark (s : Span) : List Piece :=
  if s.isNone then [] else [.mark s.lo]

/-- The mark of a node's end. -/
def Span.endMark (s : Span) : List Piece :=
  if s.isNone then [] else [.mark s.hi]

/-- The mark of the last character of a node. -/
def Span.lastMark (s : Span) : List Piece :=
  if s.isNone then [] else [.mark (s.hi - 1)]

namespace Printer

/-- A keyword with its two ends recorded. -/
def keyword (s : Span) (text : String) : List Piece :=
  if s.isNone then [.text text] else [.edge s.lo, .text text, .edge s.hi]

/-- A text whose two ends are recorded at once. -/
def exact (s : Span) (text : String) : List Piece :=
  if text.isEmpty then []
  else if s.isNone then [.text text]
  else [.spot s.lo, .text text, .spot s.hi]

def between (separator : List Piece) : List (List Piece) → List Piece
  | [] => []
  | [p] => p
  | p :: ps => p ++ separator ++ between separator ps

/-- Elements on one line. -/
def commas (ps : List (List Piece)) : List Piece :=
  between [.text ", "] ps

/-- Elements on lines of their own, one level deeper. -/
def deeper (separator : List Piece) (ps : List (List Piece)) : List Piece :=
  [.newline, .indent] ++ between separator ps ++ [.dedent, .newline]

/-- The pieces of a block without the mark of its start. -/
def bare : List Piece → List Piece
  | .mark _ :: ps => ps
  | ps => ps

def when (condition : Bool) (text : String) : List Piece :=
  if condition then [.text text] else []

/-- A piece of text with an optional part after it, which is left out if the child is absent. -/
def optional (child : Tree) (ps : List Piece) : List Piece :=
  if child.isAbsent then [] else ps

/-- A number of digits only, after which a point would belong to the number. -/
def endsInDigits (text : String) : Bool :=
  let cs := text.toList.filter (· != '_')
  cs.all Char.isDigit && (cs.head? != some '0' || cs.length == 1)

/-- What joins an object and a property name. -/
def point (object : Tree) : String :=
  match object.form with
  | .literal .number text => if endsInDigits text then ".." else "."
  | _ => "."

/-- Whether a blank is needed between a unary operator and its operand. -/
def needsBlank (operator : String) (operand : Tree) : Bool :=
  match operator, operand.form with
  | "typeof", _ | "void", _ | "delete", _ => true
  | "+", .unary "+" | "-", .unary "-" => true
  | "+", .update "++" true | "-", .update "--" true => true
  | _, _ => false

/-- A chunk of a template with every line end written as a line feed. -/
def lineFeeds : List Char → List Char
  | [] => []
  | '\r' :: '\n' :: cs => '\n' :: lineFeeds cs
  | '\r' :: cs => '\n' :: lineFeeds cs
  | c :: cs => c :: lineFeeds cs

/-- The elements of an array; a hole is nothing, and a hole at the end needs a comma of its own. -/
def elements (children : List Tree) (ps : List (List Piece)) : List Piece :=
  let lastIsHole := children.getLast?.any Tree.isAbsent
  [.newline, .indent] ++ between [.text ",", .newline] ps ++ when lastIsHole ", " ++
    [.dedent, .newline]

/-- Parts of a template: chunks by turns with expressions in their braces. -/
def templateParts : List Tree → List (List Piece) → List Piece
  | t :: ts, p :: ps =>
    match t.form with
    | .chunk _ _ => p ++ templateParts ts ps
    | _ => [.text "$\x7b"] ++ p ++ [.text "\x7d"] ++ templateParts ts ps
  | _, _ => []

def methodWord : MethodKind → String
  | .method => ""
  | .getter => "get "
  | .setter => "set "

def modifierWords (m : Modifiers) : List Piece :=
  when m.async "async " ++ when m.generator "*"

/-- A class from its keyword to its closing brace. -/
def classText (s : Span) (called parent : Tree) (calledText membersText parentText : List Piece) :
    List Piece :=
  s.startMark ++ [.text "class"] ++ optional called ([.text " "] ++ calledText) ++
    optional parent ([.text " extends "] ++ parentText) ++ [.text " \x7b"] ++ membersText ++
    s.lastMark ++ [.text "\x7d"]

/-- The rules for statements and the parts of statements. -/
def statementPieces (f : Form) (s : Span) (cs : List Tree) (ps : List (List Piece)) :
    List Piece :=
  match f, cs, ps with
  | .block _, _, _ =>
    let inside := if cs.isEmpty then [] else deeper [.newline] ps
    s.startMark ++ [.text "\x7b"] ++ inside ++ s.lastMark ++ [.text "\x7d"]
  | .emptyStatement, _, _ => [.text ";"]
  | .debuggerStatement, _, _ => keyword s "debugger" ++ [.text ";"]
  | .expressionStatement, _, [e] => e ++ [.text ";"]
  | .variableStatement kind, _, _ =>
    s.startMark ++ [.text (kind.keyword ++ " ")] ++ commas ps ++ [.text ";"]
  | .variableHead kind, _, _ => s.startMark ++ [.text (kind.keyword ++ " ")] ++ commas ps
  | .declarator, [_, init], [p, e] => s.startMark ++ p ++ optional init ([.text " = "] ++ e)
  | .functionDeclaration m, _, [called, params, body] =>
    s.startMark ++ when m.async "async " ++
      [.text (if m.generator then "function* " else "function ")] ++ called ++ params ++
      [.text " "] ++ bare body
  | .parameters, _, _ => [.text "("] ++ commas ps ++ [.text ")"]
  | .parameter, _, [p] => s.startMark ++ p ++ s.endMark
  | .classDeclaration, [called, _, parent], [calledText, membersText, parentText] =>
    classText s called parent calledText membersText parentText
  | .classBody, _, _ => if cs.isEmpty then [.newline] else deeper [.newline] ps
  | .ifStatement, [_, yes, no], [test, yesText, noText] =>
    let gap := match yes.form with
      | .block _ => [Piece.text " "]
      | _ => []
    s.startMark ++ [.text "if ("] ++ test ++ [.text ") "] ++ yesText ++
      optional no (gap ++ [.text "else "] ++ noText)
  | .forStatement, [_, test, update, _], [init, testText, updateText, body] =>
    s.startMark ++ [.text "for("] ++ init ++ [.text ";"] ++
      optional test ([.text " "] ++ testText) ++ [.text ";"] ++
      optional update ([.text " "] ++ updateText) ++ [.text ")"] ++ body
  | .forIn, _, [left, right, body] =>
    s.startMark ++ [.text "for("] ++ left ++ [.text " in "] ++ right ++ [.text ")"] ++ body
  | .forOf isAwait, _, [left, right, body] =>
    s.startMark ++ [.text "for"] ++ when isAwait " await" ++ [.text " ("] ++ left ++
      [.text " of "] ++ right ++ [.text ")"] ++ body
  | .whileStatement, _, [test, body] =>
    s.startMark ++ [.text "while("] ++ test ++ [.text ")"] ++ body
  | .doWhile, _, [test, body] =>
    s.startMark ++ [.text "do "] ++ body ++ [.text "while ("] ++ test ++ [.text ")"] ++ s.endMark
  | .switchStatement, _, value :: cases =>
    s.startMark ++ [.text "switch("] ++ value ++ [.text ")\x7b"] ++
      (if cases.isEmpty then [.newline] else deeper [.newline] cases) ++ s.lastMark ++
      [.text "\x7d"]
  | .switchCase, value :: _, valueText :: body =>
    let head :=
      if value.isAbsent then [.text "default:"] else [.text "case "] ++ valueText ++ [.text ":"]
    let inside :=
      if body.isEmpty then [] else [.newline, .indent] ++ between [.newline] body ++ [.dedent]
    s.startMark ++ head ++ inside
  | .tryStatement, [_, handler, final], [body, handlerText, finalText] =>
    s.startMark ++ [.text "try "] ++ body ++ optional handler ([.text " "] ++ handlerText) ++
      optional final ([.text " finally"] ++ finalText)
  | .catchClause, [parameter, _], [parameterText, body] =>
    s.startMark ++ [.text "catch "] ++
      optional parameter ([.text "("] ++ parameterText ++ [.text ")"]) ++ [.text " "] ++ body
  | .returnStatement, [value], [e] =>
    s.startMark ++ [.text "return"] ++ optional value ([.text " "] ++ e) ++ [.text ";"]
  | .throwStatement, _, [e] => s.startMark ++ [.text "throw "] ++ e ++ [.text ";"]
  | .breakStatement, [label], [l] =>
    s.startMark ++ [.text "break"] ++ optional label ([.text " "] ++ l) ++ [.text ";"]
  | .continueStatement, [label], [l] =>
    s.startMark ++ [.text "continue"] ++ optional label ([.text " "] ++ l) ++ [.text ";"]
  | .labeled, _, [label, body] => label ++ [.text ": "] ++ body
  | .withStatement, _, [object, body] =>
    s.startMark ++ [.text "with ("] ++ object ++ [.text ")"] ++ body
  | _, _, _ => ps.flatten

/-- The rules for expressions and the parts of expressions. -/
def expressionPieces (f : Form) (s : Span) (cs : List Tree) (ps : List (List Piece)) :
    List Piece :=
  match f, cs, ps with
  | .identifier text, _, _ | .name text, _, _ | .binding text, _, _ | .shorthand text, _, _
  | .metaProperty text, _, _ => s.startMark ++ [.text text]
  | .privateName text, _, _ => s.startMark ++ [.text ("#" ++ text)]
  | .this, _, _ => keyword s "this"
  | .super, _, _ => keyword s "super"
  | .importFunction, _, _ => keyword s "import"
  | .literal kind text, _, _ =>
    s.startMark ++ if kind = .bigint then exact s text else [.text text]
  | .chunk isTagged text, _, _ =>
    if isTagged then
      if text.isEmpty then s.startMark ++ s.endMark else s.startMark ++ [.text text] ++ s.endMark
    else exact s (String.ofList (lineFeeds text.toList))
  | .template _, _, _ =>
    s.startMark ++ [.text "`"] ++ templateParts cs ps ++ [.text "`"] ++ s.endMark
  | .taggedTemplate, _, [tag, quasi] => s.startMark ++ tag ++ quasi ++ s.endMark
  | .array, _, _ =>
    s.startMark ++ [.text "["] ++ (if cs.isEmpty then [] else elements cs ps) ++ [.text "]"] ++
      s.endMark
  | .object, _, _ =>
    s.startMark ++ [.text "\x7b"] ++
      (if cs.isEmpty then [] else deeper [.text ",", .newline] ps) ++ s.lastMark ++ [.text "\x7d"]
  | .property, _, [key, value] => key ++ [.text ": "] ++ value
  | .shorthandDefault, _, [name, value] => name ++ [.text " = "] ++ value
  | .spreadProperty, _, [e] => s.startMark ++ [.text "..."] ++ e ++ s.endMark
  | .spread, _, [e] => [.text "..."] ++ e
  | .computed, _, [e] => s.startMark ++ [.text "["] ++ e ++ [.text "]"] ++ s.endMark
  | .method kind m, _, [key, params, body] =>
    match kind with
    | .method =>
      s.startMark ++ modifierWords m ++ key ++ [.text " "] ++ params ++ [.text " "] ++ bare body
    | .getter => s.startMark ++ [.text "get "] ++ key ++ [.text " "] ++ params ++ [.text " "] ++ body
    | .setter => s.startMark ++ [.text "set "] ++ key ++ [.text " "] ++ params ++ body
  | .functionExpression m, called :: _, [calledText, params, body] =>
    s.startMark ++ when m.async "async " ++ [.text "function"] ++ when m.generator "*" ++
      optional called ([.text " "] ++ calledText) ++ params ++ [.text " "] ++ bare body
  | .arrow isAsync, [_, body], [params, bodyText] =>
    let inside := match body.form with
      | .block _ => bare bodyText
      | _ => [.indent] ++ bodyText ++ [.dedent]
    s.startMark ++ when isAsync "async " ++ params ++ [.text "=>"] ++ inside
  | .classExpression, [called, _, parent], [calledText, membersText, parentText] =>
    classText s called parent calledText membersText parentText
  | .classMethod isStatic kind m, _, [key, params, body] =>
    s.startMark ++ when isStatic "static " ++ modifierWords m ++ [.text (methodWord kind)] ++ key ++
      params ++ [.text " "] ++ body
  | .constructor, _, [_, params, body] =>
    s.startMark ++ [.text "constructor"] ++ params ++ body
  | .classField isStatic, [_, value], [key, valueText] =>
    s.startMark ++ when isStatic "static " ++ key ++ optional value ([.text " = "] ++ valueText) ++
      [.text ";"]
  | .staticBlock, _, [body] => s.startMark ++ [.text "static"] ++ body ++ s.endMark
  | .member, [object, key], [objectText, keyText] =>
    match key.form with
    | .computed => s.startMark ++ objectText ++ keyText ++ s.endMark
    | _ => s.startMark ++ objectText ++ [.text (point object)] ++ keyText ++ s.endMark
  | .superMember, [_, key], [objectText, keyText] =>
    match key.form with
    | .computed => s.startMark ++ objectText ++ keyText
    | _ => s.startMark ++ objectText ++ [.text "."] ++ keyText
  | .optionalMember isOptional, [_, key], [objectText, keyText] =>
    match key.form with
    | .computed => objectText ++ when isOptional "?." ++ keyText
    | _ => objectText ++ [.text (if isOptional then "?." else ".")] ++ keyText
  | .optionalCall isOptional, _, callee :: args =>
    callee ++ when isOptional "?." ++ [.text "("] ++ commas args ++ [.text ")"]
  | .call, _, callee :: args => s.startMark ++ callee ++ [.text "("] ++ commas args ++ [.text ")"]
  | .new hasArguments, _, made :: args =>
    s.startMark ++ [.text "new "] ++ made ++
      if hasArguments then [.text "("] ++ commas args ++ [.text ")"] else []
  | .unary operator, [operand], [e] =>
    s.startMark ++ [.text operator] ++ when (needsBlank operator operand) " " ++ e
  | .update operator isBefore, _, [e] =>
    s.startMark ++ if isBefore then [.text operator] ++ e else e ++ [.text operator]
  | .binary operator, _, [left, right] =>
    s.startMark ++ left ++ [.text (" " ++ operator ++ " ")] ++ right
  | .assignment operator, _, [target, value] =>
    target ++ [.text (" " ++ operator ++ " ")] ++ value
  | .conditional, _, [test, yes, no] =>
    s.startMark ++ test ++ [.text " ? "] ++ yes ++ [.text " : "] ++ no
  | .sequence, _, _ => s.startMark ++ commas ps
  | .paren, _, [e] => s.startMark ++ [.text "("] ++ e ++ s.lastMark ++ [.text ")"]
  | .yield isDelegate, [value], [e] =>
    s.startMark ++ [.text "yield"] ++ when isDelegate "*" ++ optional value ([.text " "] ++ e)
  | .await, _, [e] => s.startMark ++ [.text "await "] ++ e
  | .arrayPattern, _, _ => s.startMark ++ [.text "["] ++ commas ps ++ [.text "]"] ++ s.endMark
  | .objectPattern, _, _ =>
    s.startMark ++
      (if cs.isEmpty then [.text "\x7b\x7d"]
        else [.text "\x7b "] ++ commas ps ++ [.text " \x7d"]) ++ s.endMark
  | .patternProperty, _, [key, p] => s.startMark ++ key ++ [.text ": "] ++ p ++ s.endMark
  | .patternShorthand, [_, value], [name, e] =>
    s.startMark ++ name ++ optional value ([.text " = "] ++ e) ++ s.endMark
  | .defaultPattern, _, [p, e] => s.startMark ++ p ++ [.text " = "] ++ e ++ s.endMark
  | .rest, _, [p] | .restProperty, _, [p] =>
    keyword (if s.isNone then s else ⟨s.lo, s.lo + 3⟩) "..." ++ p
  | .expressionPattern, _, [e] => e
  | _, _, _ => ps.flatten

/-- The comments around a node that is in a file. -/
def commented (s : Span) (ps : List Piece) : List Piece :=
  if s.isNone then ps else [.leading s.lo] ++ ps ++ [.trailing s.hi]

/-- The pieces of a node from those of its children. -/
def nodePieces (f : Form) (s : Span) (cs : List Tree) (ps : List (List Piece)) : List Piece :=
  match f.category with
  | .statement =>
    match f with
    | .block _ => commented s (statementPieces f s cs ps)
    | _ => commented s (statementPieces f s cs ps) ++ [.newline]
  | .expression => commented s (expressionPieces f s cs ps)
  | _ =>
    match f with
    | .block _ | .variableHead _ | .declarator | .parameters | .parameter | .classBody
    | .switchCase | .catchClause => statementPieces f s cs ps
    | _ => expressionPieces f s cs ps

end Printer

/-- What is to be printed for a tree. -/
def Tree.pieces (t : Tree) : List Piece :=
  t.fold Printer.nodePieces

/-- What is to be printed for a script. -/
def Script.pieces (s : Script) : List Piece :=
  [.leading s.span.lo] ++ (if s.body.isEmpty then s.span.startMark else []) ++
    (match s.interpreter with
      | some text => [.text ("#!" ++ text), .newline]
      | none => []) ++
    s.body.flatMap Tree.pieces

end Contracts
