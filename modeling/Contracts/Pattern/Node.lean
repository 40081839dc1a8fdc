import Contracts.Syntax.Tree

/-!
# Nodes that patterns look at

A node is a tree together with its path, the numbers of the children that lead to it. Two nodes are
the same node if they are of the same category and at the same path; two nodes that merely look alike
are not. What is absent has no place, and all absent nodes are the same.
-/

namespace Contracts

structure Node where
  path : List Nat
  tree : Tree
  deriving DecidableEq, Repr

namespace Node

def category (n : Node) : Category :=
  n.tree.form.category

def isAbsent (n : Node) : Bool :=
  n.category == .absent

/-- The child of a node at an index; `absent` if there is none. -/
def child (n : Node) (i : Nat) : Node :=
  ⟨n.path ++ [i], (n.tree.children[i]?).getD Tree.absent⟩

/-- All children of a node from an index on. -/
def childrenFrom (n : Node) (i : Nat) : List Node :=
  ((n.tree.children.zipIdx).drop i).map fun (t, j) => ⟨n.path ++ [j], t⟩

/-- Whether two nodes are one. -/
def same (a b : Node) : Bool :=
  (a.isAbsent && b.isAbsent) || (a.category == b.category && a.path == b.path)

@[simp] theorem same_refl (a : Node) : a.same a = true := by
  simp [same]

theorem same_comm (a b : Node) : a.same b = b.same a := by
  simp only [same, Bool.and_comm, BEq.comm]

theorem same_trans {a b c : Node} (hab : a.same b = true) (hbc : b.same c = true) :
    a.same c = true := by
  simp only [same, isAbsent, Bool.or_eq_true, Bool.and_eq_true, beq_iff_eq] at *
  grind

/-- The name of a name, of an expression that is a variable, or of a pattern that binds one. -/
def name? (n : Node) : Option String :=
  match n.tree.form with
  | .name text | .identifier text | .binding text => some text
  | _ => none

/-- Whether the node declares variables, as a statement or in the head of a loop. -/
def isVariableDeclaration (n : Node) : Bool :=
  match n.tree.form with
  | .variableStatement _ | .variableHead _ => true
  | _ => false

/-- The expression of an argument, without the points of a spread. -/
def argument (n : Node) : Node :=
  match n.tree.form with
  | .spread => n.child 0
  | _ => n

/-- The node and everything below it. The target of an assignment is not a node of its own, but what
is below it is. -/
def allBelow (t : Tree) : List Nat → Node × List Node :=
  t.fold fun f s cs below path =>
    let parts := below.zipIdx.map fun (g, i) =>
      let (self, inner) := g (path ++ [i])
      match f with
      | .assignment _ => if i = 0 then inner else self :: inner
      | _ => self :: inner
    (⟨path, .node f s cs⟩, parts.flatten)

/-- All nodes of a script. -/
def ofScript (s : Script) : List Node :=
  (s.body.zipIdx.map fun (t, i) =>
    let (self, inner) := allBelow t [i]
    self :: inner).flatten

/-- The nodes of a script of one category. -/
def ofCategory (s : Script) (c : Category) : List Node :=
  (ofScript s).filter fun n => n.category == c

/-- The declarations in the heads of loops with three parts. -/
def loopHeads (s : Script) : List Node :=
  (ofScript s).filterMap fun n =>
    match n.tree.form with
    | .forStatement => if (n.child 0).isVariableDeclaration then some (n.child 0) else none
    | _ => none

/-- The names of the function declarations. -/
def functionNames (s : Script) : List Node :=
  (ofScript s).filterMap fun n =>
    match n.tree.form with
    | .functionDeclaration _ => some (n.child 0)
    | _ => none

/-- The order in which matches are listed: by start, and the longer one first. -/
def precedes (a b : Node) : Bool :=
  let s := a.tree.span
  let t := b.tree.span
  s.lo < t.lo || (s.lo == t.lo && t.hi ≤ s.hi)

end Node

end Contracts
