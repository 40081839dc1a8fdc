import Contracts.Config
import Contracts.Signature
import Contracts.Stats
import Contracts.Syntax.Build
import Contracts.Wrap.Shape

/-!
# Wrapping functions

A function whose leading comments carry a signature is handed to the checker, which gives back a
function that checks its calls. The pass is a fold. A statement is classified as it stands in the
script, its children are transformed, and then the statement is changed by the shape it was found to
have. Beside the new tree the pass notes every function it has met, inner ones before outer ones.

* A declaration keeps its name and becomes a function that forwards to the checked one, which it
  keeps in a property of itself; so it can be called before the place where it is written.
* The initializer of a variable and the value of a return are replaced by a call of the checker.
-/

namespace Contracts

/-- A function that was met. `wrapped` says how it is called in the log if it had a signature. -/
structure Site where
  kind : SiteKind
  wrapped : Option String
  deriving DecidableEq, Repr

namespace Wrap

/-- The function that checks. -/
def checker (config : Config) : Tree :=
  match config.checkMethod with
  | some method => Build.member (Build.lookup config.checker) method
  | none => Build.lookup config.checker

/-- A call of the checker with a label and a function. -/
def check (config : Config) (label : String) (function : Tree) : Tree :=
  Build.call (checker config) [Build.string label, function]

def labelFor (name signature : String) : String :=
  name ++ " :: " ++ signature

/-- The forwarding declaration of a function. -/
def declaration (config : Config) (name signature : String) (m : Modifiers) (s : Span)
    (called params body : Tree) : Tree :=
  let cache := Build.member (Build.identifier name) config.cacheProperty
  let function : Tree := .node (.functionExpression m) s [Tree.absent, params, body]
  let fill := Build.expressionStatement (Build.assignment cache
    (Build.binary "||" cache (check config (labelFor name signature) function)))
  let forward := Build.returnStatement (some
    (Build.call (Build.member cache "apply") [Build.this, Build.identifier "arguments"]))
  .node (.functionDeclaration .plain) s
    [called, Build.parameters [], Build.block [fill, forward]]

/-- The label of the function that a variable is initialized with. -/
def initializerLabel (name signature : String) (init : Tree) : String :=
  labelFor (init.functionName?.getD name) signature

/-- A declarator with its initializer, if there is one, handed to the checker. -/
def declarator (config : Config) (name signature : String) : Tree → Tree
  | .node .declarator s [p, init] =>
    if init.isAbsent then .node .declarator s [p, init]
    else .node .declarator s [p, check config (initializerLabel name signature init) init]
  | t => t

/-- The labels under which the initializers of declarators are wrapped. -/
def declaratorLabel? (name signature : String) : Tree → Option String
  | .node .declarator _ [_, init] =>
    if init.isAbsent then none else some (initializerLabel name signature init)
  | _ => none

/-- A declaration of variables with the initializers handed to the checker, and how that is noted. -/
def variableDeclaration (config : Config) (name : String) (signature : Option String) (t : Tree) :
    Tree × List Site :=
  match signature, t with
  | some text, .node f s ds =>
    (.node f s (ds.map (declarator config name text)),
      [⟨.initializer, some ((ds.findSome? (declaratorLabel? name text)).getD "")⟩])
  | none, _ => (t, [⟨.initializer, none⟩])

/-- The label of a returned function. -/
def returnLabel (signature : String) (value : Tree) : String :=
  match value.functionName? with
  | some name => labelFor name signature
  | none => signature

/-- Change a statement of a known shape, whose children are transformed already. -/
def statement (config : Config) (shape : Shape) (signature : Option String) (t : Tree) :
    Tree × List Site :=
  match shape, t with
  | .declaration, .node (.functionDeclaration m) s [.node (.name name) r cs, params, body] =>
    match signature with
    | some text =>
      (declaration config name text m s (.node (.name name) r cs) params body,
        [⟨.declaration, some name⟩])
    | none => (t, [⟨.declaration, none⟩])
  | .variableFunction name, .node (.variableStatement _) _ _ => variableDeclaration config name signature t
  | .returnFunction, .node .returnStatement s [value] =>
    match signature with
    | some text =>
      let label := returnLabel text value
      (.node .returnStatement s [check config label value], [⟨.returned, some label⟩])
    | none => (t, [⟨.returned, none⟩])
  | _, _ => (t, [])

/-- Change the head of a loop with three parts, if it declares a function. -/
def loopHead (config : Config) (shape : Shape) (signature : Option String) (head : Tree) :
    Tree × List Site :=
  match shape, head with
  | .variableFunction name, .node (.variableHead _) _ _ => variableDeclaration config name signature head
  | _, _ => (head, [])

/-- The signature that leads the token at a position; functions of no known shape have none. -/
def signatureAt (comments : List Comment) (shape : Shape) (position : Nat) : Option String :=
  match shape with
  | .other => none
  | _ => Signature.find? (leadingComments comments position)

/-- What the pass makes of a node, given what it made of the children. -/
def node (config : Config) (patterns : ShapePatterns) (comments : List Comment) (f : Form) (s : Span)
    (cs : List Tree) (below : List (Tree × List Site)) : Tree × List Site :=
  let children := below.map Prod.fst
  let inner := below.flatMap Prod.snd
  match f, cs, children with
  | .forStatement, head :: _, newHead :: rest =>
    let shape := Shape.classify patterns head
    let (made, sites) :=
      loopHead config shape (signatureAt comments shape head.span.lo) newHead
    (.node f s (made :: rest), inner ++ sites)
  | _, _, _ =>
    match f.category with
    | .statement =>
      let shape := Shape.classify patterns (.node f s cs)
      let (made, sites) :=
        statement config shape (signatureAt comments shape s.lo) (.node f s children)
      (made, inner ++ sites)
    | _ => (.node f s children, inner)

/-- Wrap the functions in a tree. -/
def tree (config : Config) (patterns : ShapePatterns) (comments : List Comment) (t : Tree) :
    Tree × List Site :=
  t.fold (node config patterns comments)

end Wrap

/-- The statistics after some more sites. -/
def Stats.addSites (stats : Stats) (sites : List Site) : Stats :=
  sites.foldl (fun s site => s.record site.kind site.wrapped.isSome) stats

/-- Wrap the functions of a script whose leading comments carry a signature, and note all functions
that were met. -/
def Script.wrapFunctions (script : Script) (comments : List Comment) (config : Config)
    (patterns : ShapePatterns) : Script × List Site :=
  let results := script.body.map (Wrap.tree config patterns comments)
  ({ script with body := results.map Prod.fst }, results.flatMap Prod.snd)

end Contracts
