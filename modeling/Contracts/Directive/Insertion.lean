import Contracts.Directive.Basic
import Contracts.Directive.Scope
import Contracts.Syntax.Build

/-!
# Inserting directives

Each directive becomes a call of the checker, placed in the scope that its comment belongs to. First
the scopes of the script are listed and every directive is given the number of its scope; then the
script is gone through once more in the same order, counting the blocks, and each scope takes its
statements. A statement is put in front of the first one that does not start before it.
-/

namespace Contracts

/-- The arguments of the call that a directive stands for. -/
def DirectiveKind.arguments : DirectiveKind → List Tree
  | .synonym name definition => [Build.string name, Build.string definition]
  | .instances name => [Build.string name, Build.identifier name]
  | .choice name fields =>
    [Build.string name, Build.literal (.object (fields.map fun (k, t) => (k, .string t)))]

/-- The statement that a directive stands for, with the span of its comment. -/
def Directive.statement (d : Directive) (checker : String) : Tree :=
  .node .expressionStatement d.span
    [Build.call (Build.member (Build.lookup checker) d.kind.method) d.kind.arguments]

namespace Insertion

/-- The directives by the start of their comments, each with the number of its scope. -/
def plan (scopes : List Scope) (ds : List Directive) : List (Directive × Nat) :=
  (ds.mergeSort fun a b => a.span.lo ≤ b.span.lo).map fun d => (d, Scope.target scopes d.span)

/-- Put a statement in front of the first one that does not start before it. -/
def place (statement : Tree) : List Tree → List Tree
  | [] => [statement]
  | t :: ts =>
    if statement.span.lo ≤ t.span.lo then statement :: t :: ts else t :: place statement ts

/-- Put statements into a list one after the other. -/
def splice (body statements : List Tree) : List Tree :=
  statements.foldl (fun body statement => place statement body) body

/-- The statements that are planned for a scope. -/
def pending (checker : String) (planned : List (Directive × Nat)) (scope : Nat) : List Tree :=
  (planned.filter fun p => p.2 = scope).map fun p => p.1.statement checker

/-- Go through computations of trees that count the blocks, from left to right. -/
def inOrder : List (Nat → Tree × Nat) → Nat → List Tree × Nat
  | [], next => ([], next)
  | g :: gs, next =>
    let (t, next) := g next
    let (ts, next) := inOrder gs next
    (t :: ts, next)

/-- Insert what is planned into a tree; `next` is the number of the next block, and the number after
the last block of the tree is given back. -/
def intoTree (statements : Nat → List Tree) (t : Tree) : Nat → Tree × Nat :=
  t.fold fun f s _ below next =>
    if f.isScope then
      let (children, after) := inOrder below (next + 1)
      (.node f s (splice children (statements next)), after)
    else
      let (children, after) := inOrder below next
      (.node f s children, after)

end Insertion

/-- Insert a call of the checker for every directive into its scope. -/
def Script.insertDirectives (script : Script) (ds : List Directive) (checker : String) : Script :=
  if ds.isEmpty then script
  else
    let planned := Insertion.plan (Scope.ofScript script) ds
    let statements := Insertion.pending checker planned
    let (body, _) := Insertion.inOrder (script.body.map (Insertion.intoTree statements)) 1
    { script with body := Insertion.splice body (statements 0) }

end Contracts
