import Contracts.Syntax.Tree

/-!
# Expressions that turn out to be patterns

Whether `[a, b]` is an array or a pattern shows only when the `=`, the `=>` or the `of` after it is
read. The grammar reads it as an expression first and turns it into a pattern then. Both conversions
give `none` for an expression that cannot be assigned to.

`toPattern` is a fold: the pattern of a node is put together from the patterns of its children, and
a child that stays an expression is taken from the children as they are.
-/

namespace Contracts.Tree

/-- What is assigned to, seen as a pattern. -/
def ofTarget (t : Tree) : Tree :=
  match t.form with
  | .member | .superMember | .paren => .node .expressionPattern t.span [t]
  | _ => t

def toPatternNode (f : Form) (s : Span) (cs : List Tree) (below : List (Option Tree)) :
    Option Tree :=
  match f, cs, below with
  | .absent, _, _ => some (.node f s cs)
  | .identifier text, _, _ => some (.node (.binding text) s [])
  | .member, _, _ | .superMember, _, _ => some (.node .expressionPattern s [.node f s cs])
  | .paren, [.node (.identifier _) _ _], _ | .paren, [.node .member _ _], _
  | .paren, [.node .superMember _ _], _ =>
    some (.node .expressionPattern s [.node f s cs])
  | .array, _, _ => (below.mapM id).map (.node .arrayPattern s)
  | .object, _, _ => (below.mapM id).map (.node .objectPattern s)
  | .spread, _, [some p] => some (.node .rest s [p])
  | .spreadProperty, _, [some p] => some (.node .restProperty s [p])
  | .assignment "=", [target, value], _ => some (.node .defaultPattern s [target.ofTarget, value])
  | .property, [key, _], [_, some p] => some (.node .patternProperty s [key, p])
  | .shorthand text, _, _ => some (.node .patternShorthand s [.node (.name text) s [], absent])
  | .shorthandDefault, [name, value], _ => some (.node .patternShorthand s [name, value])
  | .binding _, _, _ | .arrayPattern, _, _ | .objectPattern, _, _ | .defaultPattern, _, _
  | .rest, _, _ | .expressionPattern, _, _ => some (.node f s cs)
  | _, _, _ => none

/-- The pattern that an expression stands for. -/
def toPattern (t : Tree) : Option Tree :=
  t.fold toPatternNode

/-- Whether an expression, parentheses aside, is a name or a property. -/
def isSimpleTarget (t : Tree) : Bool :=
  t.fold fun f _ _ below =>
    match f, below with
    | .identifier _, _ | .member, _ | .superMember, _ => true
    | .paren, [inner] => inner
    | _, _ => false

/-- Whether an expression is a name that strict mode keeps from being assigned to. -/
def isRestrictedName (t : Tree) : Bool :=
  match t.form with
  | .identifier text => text == "eval" || text == "arguments"
  | _ => false

/-- Whether a statement asks for strict mode. -/
def isUseStrict (t : Tree) : Bool :=
  match t with
  | .node .expressionStatement _ [.node (.literal .string text) _ _] =>
    text == "'use strict'" || text == "\"use strict\""
  | _ => false

/-- The target of an assignment: a name, a property, either in parentheses, or, if patterns are
allowed, the pattern of an array or an object. -/
def toTarget (allowPattern : Bool) (t : Tree) : Option Tree :=
  match t with
  | .node (.identifier text) s _ => some (.node (.binding text) s [])
  | .node .array _ _ | .node .object _ _ => if allowPattern then t.toPattern else none
  | _ => if t.isSimpleTarget then some t else none

end Contracts.Tree
