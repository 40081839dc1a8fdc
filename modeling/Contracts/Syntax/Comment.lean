import Contracts.Syntax.Span

/-!
# Comments

A comment is kept apart from the tree. Its text is what stands between its marks, its span includes
them, and its anchor says which token it belongs to: the one that follows it, named by the position
where that token starts, or the one before it, named by the position where that one ends.
-/

namespace Contracts

inductive CommentKind where
  | line
  | block
  deriving DecidableEq, Repr

inductive Anchor where
  | leading (start : Nat)
  | trailing (finish : Nat)
  deriving DecidableEq, Repr

structure Comment where
  kind : CommentKind
  text : String
  span : Span
  anchor : Anchor
  deriving DecidableEq, Repr

/-- The comments that lead the token at `position`, in the order of the file. -/
def leadingComments (comments : List Comment) (position : Nat) : List Comment :=
  comments.filter fun c => c.anchor == .leading position

end Contracts
