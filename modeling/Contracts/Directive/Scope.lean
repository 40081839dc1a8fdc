import Contracts.Syntax.Tree

/-!
# Scopes

The scopes of a script are the script itself and its blocks. They are numbered in the order in which
they are met, parents before what is inside them; the script is number zero. A comment belongs to the
smallest scope that contains it, of two of the same size to the deeper one, and of two at the same
depth to the first; the script always qualifies.
-/

namespace Contracts

structure Scope where
  span : Span
  depth : Nat
  deriving DecidableEq, Repr

/-- Whether a production opens a scope. -/
def Form.isScope : Form → Bool
  | .block _ => true
  | _ => false

namespace Scope

/-- The scopes in a tree, given the depth at which it stands. -/
def ofTree (t : Tree) : Nat → List Scope :=
  t.fold fun f s _ below depth =>
    if f.isScope then ⟨s, depth + 1⟩ :: below.flatMap fun g => g (depth + 1)
    else below.flatMap fun g => g depth

/-- All scopes of a script, by their numbers. -/
def ofScript (s : Script) : List Scope :=
  ⟨s.span, 0⟩ :: s.body.flatMap fun t => ofTree t 0

/-- Whether the scope `a` with number `i` is preferred to the scope `b` with number `j`. -/
def isBetter (a : Scope) (i : Nat) (b : Scope) (j : Nat) : Bool :=
  a.span.length < b.span.length ||
    (a.span.length == b.span.length &&
      (b.depth < a.depth || (a.depth == b.depth && i < j)))

/-- Prefer the scope with number `i` to the best one so far, if it qualifies and is better. -/
def consider (span : Span) (best : Option (Scope × Nat)) (a : Scope) (i : Nat) :
    Option (Scope × Nat) :=
  if i = 0 || a.span.contains span then
    match best with
    | some (b, j) => if isBetter a i b j then some (a, i) else some (b, j)
    | none => some (a, i)
  else best

/-- The number of the scope that a comment at `span` belongs to. -/
def target (scopes : List Scope) (span : Span) : Nat :=
  match scopes.zipIdx.foldl (fun best (a, i) => consider span best a i) none with
  | some (_, i) => i
  | none => 0

end Scope

end Contracts
