/-!
# The productions of the script language

A syntax tree is a rose tree whose nodes carry a `Form`: the production that the node is an instance
of, with everything about it that is not a child. The children of a node stand in the order in which
the passes of this library visit them, and a child that may be missing is then the form `absent`, so
that the place of a child never depends on whether another one is there.

The children of each form are listed beside it. `name…` means any number of such children.
-/

namespace Contracts

/-- The three keywords that declare variables. -/
inductive VariableKind where
  | var
  | lexical
  | constant
  deriving DecidableEq, Repr

def VariableKind.keyword : VariableKind → String
  | .var => "var"
  | .lexical => "let"
  | .constant => "const"

/-- What kind of function it is, apart from its parameters and its body. -/
structure Modifiers where
  async : Bool
  generator : Bool
  deriving DecidableEq, Repr, Inhabited

/-- The modifiers of an ordinary function. -/
def Modifiers.plain : Modifiers := ⟨false, false⟩

/-- Literals are kept as they are written; the kind says how the text is to be read. -/
inductive LiteralKind where
  | null
  | boolean
  | number
  | bigint
  | string
  | regex
  deriving DecidableEq, Repr

/-- The ways in which a class or an object literal writes a function as a member. -/
inductive MethodKind where
  | method
  | getter
  | setter
  deriving DecidableEq, Repr

inductive Form where
  /-- A child that is not there. -/
  | absent
  /-- A name that is not an expression: of a function, class, property or label. -/
  | name (text : String)
  /-- A name with a number sign in front. -/
  | privateName (text : String)
  /-- Statements `s…` in braces; whether the block stands as a statement. -/
  | block (isStatement : Bool)
  | emptyStatement
  | debuggerStatement
  /-- The expression. -/
  | expressionStatement
  /-- Declarators `d…` -/
  | variableStatement (kind : VariableKind)
  /-- A name, the parameters, the body. -/
  | functionDeclaration (modifiers : Modifiers)
  /-- A name, the members, the parent class or `absent`. -/
  | classDeclaration
  /-- The test and the two branches, the second possibly `absent`. -/
  | ifStatement
  /-- The initializer, the test, the update, each possibly `absent`, and the body. -/
  | forStatement
  /-- What is assigned, the object, the body. -/
  | forIn
  /-- What is assigned, the sequence, the body. -/
  | forOf (isAwait : Bool)
  /-- The test, the body. -/
  | whileStatement
  /-- The test, the body. -/
  | doWhile
  /-- The value, then the cases `c…` -/
  | switchStatement
  /-- The block, the catch clause and the last block, one of them possibly `absent`. -/
  | tryStatement
  /-- The expression or `absent`. -/
  | returnStatement
  /-- The expression. -/
  | throwStatement
  /-- A label or `absent`. -/
  | breakStatement
  /-- A label or `absent`. -/
  | continueStatement
  /-- The label, the statement. -/
  | labeled
  /-- The object, the statement. -/
  | withStatement
  /-- The value or `absent` for the default, then the statements `s…` -/
  | switchCase
  /-- The pattern or `absent`, the block. -/
  | catchClause
  /-- Declarators `d…` in the head of a loop. -/
  | variableHead (kind : VariableKind)
  /-- The pattern, and the initializer or `absent`. -/
  | declarator
  /-- The parameters of a function, or the patterns of an arrow function. -/
  | parameters
  /-- The pattern. -/
  | parameter
  /-- Members `m…` of a class. -/
  | classBody
  | identifier (text : String)
  | this
  | literal (kind : LiteralKind) (text : String)
  /-- Chunks and expressions by turns, a chunk at both ends; whether a tag comes before it. -/
  | template (isTagged : Bool)
  /-- The text of a template between two expressions; whether the template is tagged. -/
  | chunk (isTagged : Bool) (text : String)
  /-- The tag, the template. -/
  | taggedTemplate
  /-- Expressions, spreads and `absent` for holes. -/
  | array
  /-- Properties, shorthands, methods, spreads. -/
  | object
  /-- A name or `absent`, the parameters, the body. -/
  | functionExpression (modifiers : Modifiers)
  /-- The parameters, and a block or an expression. -/
  | arrow (isAsync : Bool)
  /-- A name or `absent`, the members, the parent class or `absent`. -/
  | classExpression
  /-- The object, and a name or a computed key. -/
  | member
  /-- The object, and a name or a computed key; whether the link itself has the question mark. -/
  | optionalMember (isOptional : Bool)
  /-- The function, then the arguments `a…`; whether the link itself has the question mark. -/
  | optionalCall (isOptional : Bool)
  /-- The keyword `super`, and a name or a computed key. -/
  | superMember
  | super
  /-- The keyword `import` as the function of a call. -/
  | importFunction
  /-- Such as `new.target`, as written. -/
  | metaProperty (text : String)
  /-- The function, then the arguments `a…` -/
  | call
  /-- The class, then the arguments `a…`; whether the arguments are written. -/
  | new (hasArguments : Bool)
  /-- The expression. -/
  | unary (operator : String)
  /-- The operand; whether the operator stands before it. -/
  | update (operator : String) (isBefore : Bool)
  | binary (operator : String)
  /-- The target, the value. -/
  | assignment (operator : String)
  | conditional
  /-- Expressions `e…` -/
  | sequence
  /-- The expression. -/
  | paren
  /-- The expression or `absent`. -/
  | yield (isDelegate : Bool)
  /-- The expression. -/
  | await
  /-- The expression, among arguments and elements. -/
  | spread
  /-- A key written `[e]`. -/
  | computed
  /-- The key, the value. -/
  | property
  | shorthand (text : String)
  /-- A shorthand with a default, which only makes sense when the object becomes a pattern: the name
  and the default. -/
  | shorthandDefault
  /-- The expression, among properties. -/
  | spreadProperty
  /-- The key, the parameters, the body. -/
  | method (kind : MethodKind) (modifiers : Modifiers)
  /-- The key, the parameters, the body. -/
  | classMethod (isStatic : Bool) (kind : MethodKind) (modifiers : Modifiers)
  /-- The name, the parameters, the body. -/
  | constructor
  /-- The key, and the value or `absent`. -/
  | classField (isStatic : Bool)
  /-- The block. -/
  | staticBlock
  | binding (text : String)
  /-- Patterns and `absent` for holes. -/
  | arrayPattern
  /-- Pattern properties, shorthands and a rest. -/
  | objectPattern
  /-- The key, the pattern. -/
  | patternProperty
  /-- The name, and the default or `absent`. -/
  | patternShorthand
  /-- The pattern, the default. -/
  | defaultPattern
  /-- The pattern. -/
  | rest
  /-- The pattern, in an object pattern. -/
  | restProperty
  /-- An expression that is assigned to. -/
  | expressionPattern
  deriving DecidableEq, Repr

/-- Whether a production is that of a variable that is used. -/
def Form.isIdentifier : Form → Bool
  | .identifier _ => true
  | _ => false

/-- What a node can be taken for from outside. -/
inductive Category where
  | statement
  | expression
  | variableHead
  | declarator
  | pattern
  | name
  | absent
  | part
  deriving DecidableEq, Repr

/-- The category of a production; parts belong to one kind of parent only. -/
def Form.category : Form → Category
  | .absent => .absent
  | .name _ => .name
  | .block isStatement => if isStatement then .statement else .part
  | .template isTagged => if isTagged then .part else .expression
  | .emptyStatement | .debuggerStatement | .expressionStatement | .variableStatement _
  | .functionDeclaration _ | .classDeclaration | .ifStatement | .forStatement | .forIn | .forOf _
  | .whileStatement | .doWhile | .switchStatement | .tryStatement | .returnStatement
  | .throwStatement | .breakStatement | .continueStatement | .labeled | .withStatement => .statement
  | .variableHead _ => .variableHead
  | .declarator => .declarator
  | .identifier _ | .this | .literal _ _ | .taggedTemplate | .array | .object
  | .functionExpression _ | .arrow _ | .classExpression | .member | .optionalMember _
  | .optionalCall _ | .superMember | .metaProperty _ | .call | .new _ | .unary _ | .update _ _
  | .binary _ | .assignment _ | .conditional | .sequence | .paren | .yield _ | .await =>
    .expression
  | .binding _ | .arrayPattern | .objectPattern | .defaultPattern | .rest | .expressionPattern =>
    .pattern
  | .privateName _ | .switchCase | .catchClause | .parameters | .parameter | .classBody | .chunk _ _ | .super
  | .importFunction | .spread | .computed | .property | .shorthand _ | .shorthandDefault
  | .spreadProperty | .method _ _ | .classMethod _ _ _ | .constructor | .classField _
  | .staticBlock | .patternProperty | .patternShorthand | .restProperty => .part

end Contracts
